import FastReplay.SpscCalls
import FastReplay.StoredElements

/-! Where the calls in flight stand, and which of them have taken effect on the queue.
A call that only looks takes effect when it loads the index of the other thread; push,
pop and pop_view take effect when they store their own, or when they see that they cannot. -/
namespace FastReplay.Spsc
open GuardedRun CallHistory EffectOrder
open Threads (Thread slots)
open Monitoring (Query Reply)

def queue (s : Threads.State) : List CInt := s.pushed.drop s.consumed

def Untaken (effects : List (Ticket × Answer)) (issued : Ticket) : Prop :=
  issued ∉ effects.map Prod.fst

def Idle (s : Threads.State) : Thread → Prop
  | .producer => s.producer = .idle
  | .consumer => s.consumer = .idle

/- The first load is that of the other thread's index, which settles the answer. -/
def loadsOther : Thread → Query → Bool
  | .producer,.emptyHeadFirst => true
  | .producer,_ => false
  | .consumer,.emptyHeadFirst => false
  | .consumer,_ => true

def PushAt (s : Threads.State) (issued : Ticket) : Prop := match s.producer with
  | .idle => False
  | .loadedTail value _ _ | .notFull value _ _ | .written value _ _ => issued.call = .push value

def PopAt (s : Threads.State) (effects : List (Ticket × Answer)) (issued : Ticket) : Prop :=
  match s.consumer with
  | .idle | .reading _ _ _ => False
  | .loadedHead outVal _ | .notEmpty outVal _ => issued.call = .pop outVal ∧ Untaken effects issued
  | .taken _ out => (∃ old v, issued.call = .pop (some old) ∧ out = some v) ∧ Untaken effects issued
  | .sizeTail n t => issued.call = .popView n ∧
      if ExactRing.sizeFrom s.ring.capacity t s.ring.head < n then (issued,notEnough) ∈ effects
      else Untaken effects issued
  | .sized n | .located n _ | .contiguous n _ | .copying n _ _ | .built n _ | .advancing n _ _ =>
    issued.call = .popView n ∧ Untaken effects issued

def Gathers (s : Threads.State) (physInds : List Nat) (dest values : List CInt) : Prop :=
  values.length = physInds.length ∧ dest = values.take dest.length ∧
    ∀ (i : Nat) slot, physInds[i]? = some slot → ∃ p, slot = p % slots s ∧ s.consumed ≤ p ∧
      p < s.pushed.length ∧ values[i]? = s.pushed[p]?

def AskAt (s : Threads.State) (effects : List (Ticket × Answer)) (issued : Ticket)
    (thread : Thread) (query : Query) (loaded : Nat) : Prop :=
  Idle s thread ∧ issued.call = .ask thread query ∧
    if loadsOther thread query then (issued,.told (query.reply loaded s.ring)) ∈ effects
    else Untaken effects issued ∧ loaded = query.load s.ring

def At (s : Threads.State) (effects : List (Ticket × Answer)) (issued : Ticket) :
    Thread → Stage → Prop
  | .producer,.moving => PushAt s issued ∧ Untaken effects issued
  | .consumer,.moving => PopAt s effects issued
  | thread,.asking query loaded => AskAt s effects issued thread query loaded
  | .consumer,.sampling gen batchSize h => Idle s .consumer ∧ issued.call = .sample gen batchSize ∧
      h = s.ring.head ∧ Untaken effects issued
  | .consumer,.gathering physInds dest => Idle s .consumer ∧ dest.length < physInds.length ∧
      ∃ values, (issued,.entries values) ∈ effects ∧ Gathers s physInds dest values
  | .producer,_ => False

def Standing (s : Threads.State) (effects : List (Ticket × Answer)) (thread : Thread) :
    Option (Ticket × Stage) → Prop
  | none => Idle s thread
  | some (issued,stage) => At s effects issued thread stage

structure Inv (std : StdVector) (capacity : Nat) (s : State) (effects : List (Ticket × Answer)) :
    Prop where
  threads : Threads.Inv capacity s.now
  books : Books Call.thread (serve std capacity) [] s.calls s.events effects (queue s.now)
  standing : ∀ thread, Standing s.now effects thread (s.calls thread)

variable {std : StdVector} {capacity : Nat} {effects more : List (Ticket × Answer)} {issued : Ticket}
  {s t : Threads.State}

theorem initInv (std : StdVector) (capacity : Nat) : Inv std capacity (init capacity) [] where
  threads := Threads.initInv capacity
  books := booksNone _ _ _
  standing thread := by cases thread <;> rfl

theorem queueLength (inv : Threads.Inv capacity s) :
    (queue s).length + s.consumed = s.pushed.length := by
  have order := inv.order
  rw [queue,List.length_drop]
  omega

theorem queueAt (s : Threads.State) (i : Nat) : (queue s)[i]? = s.pushed[s.consumed+i]? :=
  List.getElem?_drop

theorem queueStored (inv : Threads.Inv capacity s) : s.ring.Stores (queue s) where
  slots := inv.length
  head := inv.headBelow
  tail := by
    have total := queueLength inv
    rw [inv.tail,← total,Nat.add_comm]
    exact (inv.headStep _).symm
  fits := by
    have total := queueLength inv
    have room := inv.room
    omega
  live := by
    intro i inside
    have total := queueLength inv
    have live := inv.live (s.consumed+i) (Nat.le_add_right _ _) (by omega)
    rw [inv.length,inv.headStep,live]
    exact (queueAt s i).symm

theorem replyIs (inv : Threads.Inv capacity s) (query : Query) :
    query.reply (query.load s.ring) s.ring = reply (queue s) query := by
  have stores := queueStored inv
  have empty : decide (s.ring.head = s.ring.tail) = (queue s).isEmpty := by
    rw [Bool.eq_iff_iff,decide_eq_true_iff]
    exact stores.emptyIff.trans List.isEmpty_iff.symm
  cases query with
  | size => exact congrArg Reply.count stores.size
  | emptyHeadFirst => exact congrArg Reply.flag empty
  | emptyTailFirst => exact congrArg Reply.flag empty

def Unmoved (s t : Threads.State) : Thread → Prop
  | .producer => t.producer = s.producer ∧ t.ring.capacity = s.ring.capacity ∧
      t.ring.tail = s.ring.tail
  | .consumer => t.consumer = s.consumer ∧ t.ring.capacity = s.ring.capacity ∧
      t.ring.head = s.ring.head ∧ t.consumed = s.consumed ∧ s.pushed <+: t.pushed

theorem unmovedSelf (s : Threads.State) (thread : Thread) : Unmoved s s thread := by
  cases thread
  · exact ⟨rfl,rfl,rfl⟩
  · exact ⟨rfl,rfl,rfl,rfl,List.prefix_refl _⟩

theorem Gathers.kept {physInds dest values} (h : Gathers s physInds dest values)
    (unmoved : Unmoved s t .consumer) : Gathers t physInds dest values := by
  obtain ⟨_,capacity,_,consumed,grown⟩ := unmoved
  obtain ⟨length,part,named⟩ := h
  refine ⟨length,part,fun i slot found => ?_⟩
  obtain ⟨p,rfl,least,below,value⟩ := named i slot found
  have longer := grown.length_le
  have same := List.prefix_iff_getElem?.mp grown p below
  refine ⟨p,by simp only [slots,capacity],by omega,by omega,?_⟩
  rw [value,same]
  exact List.getElem?_eq_getElem below

theorem replyKept {thread query loaded} (unmoved : Unmoved s t thread)
    (other : loadsOther thread query = true) :
    query.reply loaded t.ring = query.reply loaded s.ring := by
  cases thread <;> cases query <;> simp [loadsOther] at other
  · simp only [Query.reply,unmoved.2.2]
  · simp only [Query.reply,unmoved.2.1,unmoved.2.2.1]
  · simp only [Query.reply,unmoved.2.2.1]

theorem loadKept {thread query} (unmoved : Unmoved s t thread)
    (own : loadsOther thread query = false) : query.load t.ring = query.load s.ring := by
  cases thread <;> cases query <;> simp [loadsOther] at own
  · exact unmoved.2.2
  · exact unmoved.2.2
  · exact unmoved.2.2.1

theorem idleKept {thread} (unmoved : Unmoved s t thread) (idle : Idle s thread) : Idle t thread := by
  cases thread
  · exact unmoved.1.trans idle
  · exact unmoved.1.trans idle

theorem PopAt.kept (h : PopAt s effects issued) (unmoved : Unmoved s t .consumer)
    (grown : effects ⊆ more) (own : Untaken effects issued → Untaken more issued) :
    PopAt t more issued := by
  obtain ⟨same,capacity,head,_⟩ := unmoved
  unfold PopAt at h ⊢
  rw [same,capacity,head]
  split at h
  · exact h
  · exact h
  · exact ⟨h.1,own h.2⟩
  · exact ⟨h.1,own h.2⟩
  · exact ⟨h.1,own h.2⟩
  · refine ⟨h.1,?_⟩
    have seen := h.2
    split at seen
    · rename_i short
      rw [if_pos short]
      exact grown seen
    · rename_i enough
      rw [if_neg enough]
      exact own seen
  all_goals exact ⟨h.1,own h.2⟩

theorem atAsking {thread query loaded} : At s effects issued thread (.asking query loaded) ↔
    AskAt s effects issued thread query loaded := by
  cases thread <;> exact Iff.rfl

theorem AskAt.kept {thread query loaded} (h : AskAt s effects issued thread query loaded)
    (unmoved : Unmoved s t thread) (grown : effects ⊆ more)
    (own : Untaken effects issued → Untaken more issued) :
    AskAt t more issued thread query loaded := by
  obtain ⟨idle,call,took⟩ := h
  refine ⟨idleKept unmoved idle,call,?_⟩
  split
  · rename_i other
    rw [if_pos other] at took
    rw [replyKept unmoved other]
    exact grown took
  · rename_i mine
    rw [if_neg mine] at took
    rw [loadKept unmoved (Bool.eq_false_iff.mpr mine)]
    exact ⟨own took.1,took.2⟩

theorem At.kept {thread stage} (h : At s effects issued thread stage) (unmoved : Unmoved s t thread)
    (grown : effects ⊆ more) (own : Untaken effects issued → Untaken more issued) :
    At t more issued thread stage := by
  cases stage with
  | moving =>
    cases thread with
    | producer =>
      refine ⟨?_,own h.2⟩
      have push := h.1
      unfold PushAt at push ⊢
      rwa [unmoved.1]
    | consumer => exact PopAt.kept h unmoved grown own
  | asking query loaded =>
    exact atAsking.mpr ((atAsking.mp h).kept unmoved grown own)
  | sampling gen batchSize h' =>
    cases thread with
    | producer => exact h
    | consumer =>
      obtain ⟨idle,call,head,untaken⟩ := h
      exact ⟨idleKept unmoved idle,call,by rw [unmoved.2.2.1]; exact head,own untaken⟩
  | gathering physInds dest =>
    cases thread with
    | producer => exact h
    | consumer =>
      obtain ⟨idle,part,values,took,gathers⟩ := h
      exact ⟨idleKept unmoved idle,part,values,grown took,gathers.kept unmoved⟩

end FastReplay.Spsc
