import FastReplay.WeakReads

/-! What pop_view copies under stale loads. It goes by size(), whose relaxed loads bring
nothing that the producer wrote. -/
namespace FastReplay.Weak
open GuardedRun
open Stale (visible)
variable {capacity : Nat} {s t : State}

theorem Inv.olderVisible (inv : Inv capacity s) {p : Nat} (published : p < s.pushed.length)
    (unbrought : s.knownWrites ≤ p) : ∃ seen v,
      visible s.writes s.knownWrites (p % (capacity+1)) seen = some v ∧ seen ≠ some p := by
  have elsewhere : ∀ (i : Nat) w, s.writes[i]? = some w → i < p → p < i+(capacity+1) →
      w.1 ≠ p % (capacity+1) := by
    intro i w found before near same
    rw [inv.slots i w found] at same
    have := CyclicIndex.sameSlot same (by omega) (by omega)
    omega
  by_cases first : p < capacity+1
  · refine ⟨none,0,?_,by simp⟩
    have untouched : (s.writes.take s.knownWrites).all (·.1 != p % (capacity+1)) = true := by
      rw [List.all_eq_true]
      intro w mem
      obtain ⟨i,found⟩ := List.mem_iff_getElem?.mp mem
      rw [List.getElem?_take] at found
      split at found <;> try contradiction
      exact bne_iff_ne.mpr (elsewhere i w found (by omega) (by omega))
    simp only [visible,if_pos untouched]
  · obtain ⟨v,_,written⟩ := inv.written (show p-(capacity+1) < s.pushed.length by omega)
    have lap : (p-(capacity+1)) % (capacity+1) = p % (capacity+1) :=
      (Nat.mod_eq_sub_mod (by omega)).symm
    rw [lap] at written
    have newest : ((s.writes.take s.knownWrites).drop (p-(capacity+1)+1)).all
        (·.1 != p % (capacity+1)) = true := by
      rw [List.all_eq_true]
      intro w mem
      obtain ⟨i,found⟩ := List.mem_iff_getElem?.mp mem
      rw [List.getElem?_drop,List.getElem?_take] at found
      split at found <;> try contradiction
      exact bne_iff_ne.mpr (elsewhere _ w found (by omega) (by omega))
    refine ⟨some (p-(capacity+1)),v,?_,fun same => ?_⟩
    · simp only [visible,written,Option.bind_eq_bind,Option.bind_some]
      rw [if_pos ⟨trivial,newest⟩]
    · have := Option.some.inj same
      omega

theorem Inv.forcedIff (inv : Inv capacity s) {p : Nat} (live : s.consumed ≤ p)
    (published : p < s.pushed.length) :
    (∀ seen v, visible s.writes s.knownWrites (p % (capacity+1)) seen = some v → seen = some p) ↔
      p < s.knownWrites := by
  constructor
  · intro forced
    by_contra unbrought
    obtain ⟨seen,v,read,other⟩ := inv.olderVisible published (by omega)
    exact other (forced seen v read)
  · exact fun brought seen v read => (inv.reads live brought read).1

theorem copySlotIs {consumed copied : Nat} (small : copied < capacity+1) :
    copySlot capacity (consumed % (capacity+1)) copied = (consumed+copied) % (capacity+1) := by
  have below := Nat.mod_lt consumed (show 0 < capacity+1 by omega)
  have lap : (consumed+copied) % (capacity+1) = (consumed % (capacity+1)+copied) % (capacity+1) :=
    (Nat.mod_add_mod _ _ _).symm
  have wrap := CyclicIndex.wrapOnce (m := capacity+1) (x := consumed % (capacity+1)+copied) (by omega)
  rw [lap,wrap]
  unfold copySlot
  split <;> split <;> omega

theorem copyAdmits {n cur : Nat} {dest : List CInt} (copying : s.consumer = .copying n cur dest)
    (seen : Option Nat) : (∃ t, step capacity s (.copyEntry seen) = some t) ↔
      ∃ v, visible s.writes s.knownWrites (copySlot capacity cur dest.length) seen = some v := by
  have own : step capacity s (.copyEntry seen) = view capacity s (.copyEntry seen) := by
    simp [step,produce,pop,sample]
  simp only [own,view,copying]
  constructor
  · intro moves
    obtain ⟨t,moved⟩ := moves
    obtain ⟨v,read,_⟩ := Option.bind_eq_some_iff.mp moved
    exact ⟨v,read⟩
  · intro reads
    obtain ⟨v,read⟩ := reads
    simp [read]

theorem weakCopyForced (capacity : Nat) (acts : List Action) (s : State)
    (run : exec (step capacity) init acts = some s) (n cur : Nat) (dest : List CInt)
    (copying : s.consumer = .copying n cur dest) :
    s.consumed+dest.length < s.pushed.length ∧
    ((∀ seen t, step capacity s (.copyEntry seen) = some t → seen = some (s.consumed+dest.length)) ↔
      s.consumed+dest.length < s.knownWrites) := by
  have inv := runInv run
  have consumer := inv.consumer
  have published := inv.tailSeen
  have room := inv.room
  have most := inv.releasedMost inv.freedIs
  simp only [ConsumerAt,copying] at consumer
  obtain ⟨head,enough,part⟩ := consumer
  have below : s.consumed+dest.length < s.pushed.length := by omega
  have slot : copySlot capacity cur dest.length = (s.consumed+dest.length) % (capacity+1) := by
    rw [head]
    exact copySlotIs (by omega)
  refine ⟨below,Iff.trans ?_ (inv.forcedIff (Nat.le_add_right _ _) below)⟩
  rw [← slot]
  constructor
  · intro forced seen v read
    obtain ⟨t,moved⟩ := (copyAdmits copying seen).mpr ⟨v,read⟩
    exact forced seen t moved
  · intro forced seen t moved
    obtain ⟨v,read⟩ := (copyAdmits copying seen).mp ⟨t,moved⟩
    exact forced seen v read

theorem weakCopyStaleAtTwo : ∃ s,
    exec (step 2) init [.push 3,.loadHead 0,.writeSlot,.storeTail,.push 4,.loadHead 0,.writeSlot,
      .storeTail,.pop true,.loadTail 2,.readSlot (some 0),.storeHead,.pop true,.loadTail 2,
      .readSlot (some 1),.storeHead,.push 5,.loadHead 2,.writeSlot,.storeTail,.push 6,.loadHead 2,
      .writeSlot,.storeTail,.popView 2 4,.sizeHead,.currentHead] = some s ∧
    ¬ ∀ seen t, step 2 s (.copyEntry seen) = some t → seen = some 2 := by
  obtain ⟨_,forced⟩ := weakCopyForced 2 [.push 3,.loadHead 0,.writeSlot,.storeTail,.push 4,.loadHead 0,
    .writeSlot,.storeTail,.pop true,.loadTail 2,.readSlot (some 0),.storeHead,.pop true,.loadTail 2,
    .readSlot (some 1),.storeHead,.push 5,.loadHead 2,.writeSlot,.storeTail,.push 6,.loadHead 2,
    .writeSlot,.storeTail,.popView 2 4,.sizeHead,.currentHead] _ rfl 2 2 [] rfl
  exact ⟨_,rfl,fun all => absurd (forced.mp all) (by decide)⟩

end FastReplay.Weak
