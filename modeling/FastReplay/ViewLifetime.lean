import FastReplay.PopViewPops

/-! How long the array of pop_view's contiguous branch reads what it read when it
was returned. Its slots are the ring's own, and push comes round to them. -/
namespace FastReplay
open GuardedRun

def Op.accepted {ι : Type} : Op → Except Exception (Value ι) → Option CInt
  | .push value,.ok (.flag true) => some value
  | _,_ => none

def acceptedPushes (ops : List Op) (results : List (Except Exception (Value SizeT))) : List CInt :=
  (ops.zip results).filterMap fun call => call.1.accepted call.2

theorem acceptedExact (op : Op) (result : Except Exception (Value SizeT)) :
    op.accepted (result.map valueExact) = op.accepted result := by
  cases result with
  | error e => cases op <;> rfl
  | ok value =>
    cases op with
    | push v =>
      cases value with
      | flag b => cases b <;> rfl
      | _ => rfl
    | _ => cases value <;> rfl

theorem exactWrites (std : StdVector) (r : ExactRing) (op : Op) :
    match op.accepted (op.exact std r).1 with
    | some v => (op.exact std r).2.buf = r.buf.set r.tail v ∧
        (op.exact std r).2.tail = (r.tail+1) % (r.capacity+1)
    | none => (op.exact std r).2.buf = r.buf ∧ (op.exact std r).2.tail = r.tail := by
  cases op with
  | push value =>
    simp only [Op.exact,ExactRing.push]
    by_cases full : (r.tail+1) % (r.capacity+1) = r.head
    · rw [if_pos full]
      exact ⟨rfl,rfl⟩
    · rw [if_neg full]
      exact ⟨rfl,rfl⟩
  | pop outVal =>
    refine ⟨r.popBuf outVal,?_⟩
    simp only [Op.exact,ExactRing.pop]
    split <;> rfl
  | advanceHead n => exact ⟨rfl,rfl⟩
  | size => exact ⟨rfl,rfl⟩
  | empty => exact ⟨rfl,rfl⟩
  | sampleIndices gen batchSize =>
    cases drawn : r.sampleIndices std gen batchSize.toNat <;> exact ⟨rfl,rfl⟩
  | popView built n =>
    have unwritten : (r.popView built n.toNat).2.buf = r.buf ∧
        (r.popView built n.toNat).2.tail = r.tail := by
      unfold ExactRing.popView
      split
      · exact ⟨rfl,rfl⟩
      split
      · exact ⟨rfl,rfl⟩
      split <;> exact ⟨rfl,rfl⟩
    simp only [Op.exact]
    cases (r.popView built n.toNat).1 <;> exact unwritten

structure Since (start ring : RingBuffer) (pushed : List CInt) : Prop where
  represents : ∃ entries, Represents ring entries
  capacity : ring.capacity = start.capacity
  tail : ring.tail.toNat = (start.tail.toNat+pushed.length) % (start.capacity.toNat+1)
  written : CyclicIndex.WrittenFrom start.buf ring.buf start.tail.toNat pushed

variable {std : StdVector} {start : RingBuffer} {t u : Session RingBuffer SizeT}
  {pushed : List CInt} {op : Op} {later : List Op}

theorem sinceStart {entries : List CInt} (h : Represents start entries) : Since start start [] where
  represents := ⟨entries,h⟩
  capacity := rfl
  tail := (Nat.mod_eq_of_lt h.admitted.tail).symm
  written := CyclicIndex.writtenNone start.buf start.tail.toNat

theorem Since.slots (h : Since start t.ring pushed) :
    t.ring.buf.length = start.capacity.toNat+1 := by
  obtain ⟨entries,represents⟩ := h.represents
  rw [represents.admitted.slots,h.capacity]

theorem Since.afterCall (std : StdVector) (h : Since start t.ring pushed) (allowed : op.Allowed t) :
    ∃ u result, step std t op = some u ∧ u.results = t.results ++ [result] ∧
      Since start u.ring (pushed ++ (op.accepted result).toList) ∧
      match op.accepted result with
      | some v => u.ring.buf = t.ring.buf.set t.ring.tail.toNat v
      | none => u.ring.buf = t.ring.buf := by
  obtain ⟨entries,represents⟩ := h.represents
  obtain ⟨u,result,moved,appended,same,exactRing,_⟩ := represents.callExact allowed
  obtain ⟨u',result',moved',_,kept,capacity⟩ := represents.afterCall allowed
  cases moved.symm.trans moved'
  have writes := exactWrites std t.ring.exact op
  rw [← same,acceptedExact,← exactRing] at writes
  have slots := h.slots
  cases answer : op.accepted result with
  | none =>
    rw [answer] at writes
    obtain ⟨buf,tail⟩ : u.ring.buf = t.ring.buf ∧ u.ring.tail.toNat = t.ring.tail.toNat := writes
    refine ⟨u,result,moved,appended,⟨⟨_,kept⟩,capacity.trans h.capacity,?_,?_⟩,?_⟩
    · rw [tail,answer,Option.toList_none,List.append_nil]
      exact h.tail
    · rw [buf,answer,Option.toList_none,List.append_nil]
      exact h.written
    · rw [answer]
      exact buf
  | some v =>
    rw [answer] at writes
    obtain ⟨buf,tail⟩ : u.ring.buf = t.ring.buf.set t.ring.tail.toNat v ∧
        u.ring.tail.toNat = (t.ring.tail.toNat+1) % (t.ring.capacity.toNat+1) := writes
    refine ⟨u,result,moved,appended,⟨⟨_,kept⟩,capacity.trans h.capacity,?_,?_⟩,?_⟩
    · rw [tail,h.capacity,h.tail,CyclicIndex.stepSlot,answer]
      simp
    · have next := h.written.next (by omega) v
      rwa [slots,← h.tail,← buf,← Option.toList_some,← answer] at next
    · rw [answer]
      exact buf

theorem Since.afterCalls (h : Since start t.ring pushed)
    (allowed : Meets (step std) Op.Allowed t later) :
    ∃ u results, exec (step std) t later = some u ∧ u.results = t.results ++ results ∧
      Since start u.ring (pushed ++ acceptedPushes later results) := by
  induction later generalizing t pushed with
  | nil => exact ⟨t,[],rfl,(List.append_nil _).symm,by simpa [acceptedPushes] using h⟩
  | cons op later ih =>
    obtain ⟨next,result,first,appended,kept,_⟩ := h.afterCall std allowed.1
    obtain ⟨u,results,run,rest,final⟩ := ih kept (allowed.2 next first)
    refine ⟨u,result::results,execCons.mpr ⟨next,first,run⟩,?_,?_⟩
    · rw [rest,appended,List.append_assoc,List.singleton_append]
    · have joined : acceptedPushes (op::later) (result::results)
          = (op.accepted result).toList ++ acceptedPushes later results := by
        unfold acceptedPushes
        cases answer : op.accepted result <;> simp [answer]
      rwa [joined,← List.append_assoc]

def viewEntry (rb : RingBuffer) (a : PyArray SizeT) (i : Nat) : Option CInt := (rb.arrayValues a)[i]?

theorem viewSlot {rb : RingBuffer} {first n : SizeT} {i : Nat} (inside : i < n.toNat) :
    viewEntry rb (.view first n) i = rb.buf[first.toNat+i]? := by
  rw [viewEntry,RingBuffer.arrayValues,List.getElem?_take_of_lt inside,List.getElem?_drop]

/- Entry i of a view of slot place, after some calls: turn pushes may succeed
before the one that writes the slot, and nothing else writes any slot. -/
structure EntryLife (std : StdVector) (view : PyArray SizeT) (i place turn : Nat) (first : CInt)
    (t : Session RingBuffer SizeT) (pushed : List CInt) : Prop where
  kept : pushed.length ≤ turn → viewEntry t.ring view i = some first
  overwritten : pushed.length = turn+1 → viewEntry t.ring view i = pushed[turn]?
  next : ∀ op, op.Allowed t → ∃ u result, step std t op = some u ∧
    u.results = t.results ++ [result] ∧
    match op.accepted result with
    | none => u.ring.buf = t.ring.buf
    | some v => ∃ slot, u.ring.buf = t.ring.buf.set slot v ∧
        (pushed.length < turn → slot ≠ place) ∧ (pushed.length = turn → slot = place)

theorem Since.entryLife {head n : SizeT} {i turn : Nat} {first : CInt} (h : Since start t.ring pushed)
    (inside : i < n.toNat) (lap : turn < start.capacity.toNat+1)
    (place : (start.tail.toNat+turn) % (start.capacity.toNat+1) = head.toNat+i)
    (found : start.buf[head.toNat+i]? = some first) :
    EntryLife std (.view head n) i (head.toNat+i) turn first t pushed := by
  have slots := h.slots
  refine ⟨?_,?_,?_⟩
  · intro few
    have untouched := h.written.untouched turn few (by omega)
    rw [slots,place] at untouched
    rw [viewSlot inside,untouched,found]
  · intro reached
    have latest := h.written.latest turn (by omega) (by omega)
    rw [slots,place] at latest
    rw [viewSlot inside,latest]
  · intro op allowed
    obtain ⟨u,result,moved,appended,_,buf⟩ := h.afterCall std allowed
    refine ⟨u,result,moved,appended,?_⟩
    cases answer : op.accepted result with
    | none => rwa [answer] at buf
    | some v =>
      rw [answer] at buf
      refine ⟨t.ring.tail.toNat,buf,fun early same => ?_,fun now => ?_⟩
      · rw [h.tail,← place] at same
        have := CyclicIndex.sameSlot same (by omega) (by omega)
        omega
      · rw [h.tail,now,place]

theorem viewLifetime (std : StdVector) (capacity : SizeT) (rb : RingBuffer)
    (made : RingBuffer.construct std capacity = .ok rb) (ops : List Op)
    (allowed : Meets (step std) Op.Allowed ⟨rb,[]⟩ ops) (s : Session RingBuffer SizeT)
    (run : exec (step std) ⟨rb,[]⟩ ops = some s) (count : SizeT)
    (sized : RingBuffer.size.run s.ring = .ok count s.ring) (n : SizeT) (enough : n ≤ count)
    (contiguous : s.ring.head.toNat+n.toNat ≤ capacity.toNat+1) :
    ∃ after, step std s (.popView true n) = some after ∧
      after.results = s.results ++ [.ok (.array (.view s.ring.head n))] ∧
      ∀ i, i < n.toNat → ∃ first, (unpopped ops s.results)[i]? = some first ∧
        viewEntry after.ring (.view s.ring.head n) i = some first ∧
        ∀ later, Meets (step std) Op.Allowed after later → ∃ t results,
          exec (step std) after later = some t ∧ t.results = after.results ++ results ∧
          EntryLife std (.view s.ring.head n) i (s.ring.head.toNat+i)
            (capacity.toNat+1-count.toNat+i) first t (acceptedPushes later results) := by
  obtain ⟨h,rfl,word⟩ := sizedStored made allowed run sized
  obtain ⟨_,counted,calls⟩ := h.popViewPops
  cases counted.symm.trans sized
  obtain ⟨_,array,_,ring,viewed,_,_,_,shape⟩ := (calls n).2 enough
  rw [if_pos contiguous] at shape
  subst shape
  have few : n.toNat ≤ count.toNat := UInt64.le_iff_toNat_le.mp enough
  have moved : step std s (.popView true n)
      = some ⟨ring,s.results ++ [.ok (.array (.view s.ring.head n))]⟩ := by
    simp [step,Op.call,viewed]
  obtain ⟨after,_,again,_,since,buf⟩ := (sinceStart h).afterCall std
    (show (Op.popView true n).Allowed s from trivial)
  cases again.symm.trans moved
  refine ⟨_,moved,rfl,fun i inside => ?_⟩
  have here : i < (unpopped ops s.results).length := by omega
  have fits : (unpopped ops s.results).length ≤ s.ring.capacity.toNat := h.stores.fits
  have tail : s.ring.tail.toNat
      = (s.ring.head.toNat+(unpopped ops s.results).length) % (s.ring.capacity.toNat+1) := h.stores.tail
  have slot : s.ring.head.toNat+i < s.ring.capacity.toNat+1 := by omega
  have found := h.liveEntry here
  rw [Represents.slot,Nat.mod_eq_of_lt slot,List.getElem?_eq_getElem here] at found
  have place : (s.ring.tail.toNat+(s.ring.capacity.toNat+1-count.toNat+i)) % (s.ring.capacity.toNat+1)
      = s.ring.head.toNat+i := by
    have total : s.ring.head.toNat+(unpopped ops s.results).length
        +(s.ring.capacity.toNat+1-count.toNat+i)
        = s.ring.head.toNat+i+(s.ring.capacity.toNat+1) := by omega
    rw [tail,Nat.mod_add_mod,total,Nat.add_mod_right,Nat.mod_eq_of_lt slot]
  refine ⟨_,List.getElem?_eq_getElem here,?_,fun later meets => ?_⟩
  · rw [viewSlot inside]
    exact (congrArg (·[s.ring.head.toNat+i]?) buf).trans found
  · obtain ⟨t,results,later,appended,final⟩ := since.afterCalls meets
    exact ⟨t,results,later,appended,final.entryLife inside (by omega) place found⟩

theorem viewLifetimeAtThree : ∃ t : Session RingBuffer SizeT,
    exec (step StdVector.small) ⟨⟨3,[5,6,0,0],2,2⟩,
        [.ok (.flag true),.ok (.flag true),.ok (.array (.view 0 2))]⟩
      [.push 7,.push 8,.push 9] = some t ∧
      viewEntry t.ring (.view 0 2) 0 = some 9 := by
  have allowed : Meets (step StdVector.small) Op.Allowed ⟨⟨3,[0,0,0,0],0,0⟩,[]⟩ [.push 5,.push 6] :=
    meetsAlways (by simp [Op.Allowed]) _
  obtain ⟨after,moved,_,entries⟩ := viewLifetime StdVector.small 3 ⟨3,[0,0,0,0],0,0⟩ (by decide)
    [.push 5,.push 6] allowed ⟨⟨3,[5,6,0,0],0,2⟩,[.ok (.flag true),.ok (.flag true)]⟩ rfl 2 rfl 2
    (by decide) (by decide)
  cases Option.some.inj moved
  obtain ⟨first,_,_,lives⟩ := entries 0 (by decide)
  obtain ⟨t,results,run,appended,life⟩ := lives [.push 7,.push 8,.push 9]
    (meetsAlways (by simp [Op.Allowed]) _)
  cases Option.some.inj run
  have pushes : results = [.ok (.flag true),.ok (.flag true),.ok (.flag true)] :=
    (congrArg (List.drop 3) appended).symm
  subst pushes
  exact ⟨_,run,life.overwritten rfl⟩

end FastReplay
