import Mathlib.Data.Set.Basic
import FastReplay.AddHistory

/-! optimize_memory_usage on: observations and next observations share one array, so
the row at pos has lost its observation once the buffer is full. The parent's own
sample leaves it out; the ring still lists it. -/
namespace FastReplay
open GuardedRun SlidingWindow FastReplayBuffer

variable {P : ReplayBuffer} {std : StdVector} {fb : FastReplayBuffer P} {t : Told P}

/- The rows the parent's sample may hand to _get_samples in this mode. -/
def parentRows (n pos : Nat) (full : Bool) : Set Nat :=
  {r | if full then ∃ j, 1 ≤ j ∧ j < n ∧ r = (pos+j) % n else r < pos}

def offeredRows (std : StdVector) (fb : FastReplayBuffer P) : Set Nat :=
  {r | ∃ gen batchSize inds after, (batchInds std gen batchSize).run fb = .ok inds after ∧
    ∃ i ∈ inds, i.toInt = r}

theorem offeredHeld {entries : List CInt} (h : Represents fb.indexRing entries) (nonempty : entries ≠ [])
    (roomForOne : 0 < std.maxWords) : offeredRows std fb = {r : Nat | ∃ v ∈ entries, v.toInt = r} := by
  have some := List.length_pos_iff.mpr nonempty
  ext r
  constructor
  · rintro ⟨gen,batchSize,inds,after,run,v,mem,word⟩
    by_cases long : std.maxWords < batchSize.toNat
    · rw [batchIndsLong h nonempty gen long] at run
      contradiction
    · rw [batchIndsRun h nonempty gen long] at run
      cases run
      obtain ⟨draw,_,rfl⟩ := List.mem_map.mp mem
      have inside := gen.inRange (entries.length-1) draw
      refine ⟨_,?_,word⟩
      rw [List.getD_eq_getElem?_getD,List.getElem?_eq_getElem (by omega),Option.getD_some]
      exact List.getElem_mem _
  · rintro ⟨v,mem,word⟩
    obtain ⟨d,small,rfl⟩ := List.mem_iff_getElem.mp mem
    have one : ¬ std.maxWords < (1 : SizeT).toNat := by rw [UInt64.toNat_one]; omega
    refine ⟨Generator.always d,1,_,fb,batchIndsRun h nonempty _ one,_,?_,word⟩
    refine List.mem_map.mpr ⟨0,List.mem_range.mpr (by decide),?_⟩
    rw [Generator.drawsAlways (by omega),List.getD_eq_getElem?_getD,List.getElem?_eq_getElem small,
      Option.getD_some]

theorem Counted.parentRows {s : P.State} {k : Nat} (h : Counted P s k) :
    parentRows P.bufferSize (P.pos s) (P.full s)
      = rowsBack P.bufferSize k (min k (P.bufferSize-1)) := by
  have positive := P.positive
  ext r
  rw [h.pos,h.full]
  rcases Nat.lt_or_ge k P.bufferSize with filling | full
  · rw [decide_eq_false (by omega),Nat.mod_eq_of_lt filling]
    constructor
    · intro below
      have small : r < k := by simpa [FastReplay.parentRows] using below
      exact ⟨r,by omega,small,(Nat.mod_eq_of_lt (by omega)).symm⟩
    · rintro ⟨c,_,below,rfl⟩
      have same : c % P.bufferSize = c := Nat.mod_eq_of_lt (by omega)
      simpa [FastReplay.parentRows,same] using below
  · rw [decide_eq_true full]
    constructor
    · rintro ⟨j,least,most,rfl⟩
      refine ⟨k-P.bufferSize+j,by omega,by omega,?_⟩
      have lap : k-P.bufferSize+j+P.bufferSize = k+j := by omega
      rw [Nat.mod_add_mod,← lap,Nat.add_mod_right]
    · rintro ⟨c,least,below,rfl⟩
      refine ⟨c+P.bufferSize-k,by omega,by omega,?_⟩
      have lap : k+(c+P.bufferSize-k) = c+P.bufferSize := by omega
      rw [Nat.mod_add_mod,lap,Nat.add_mod_right]

theorem posExcluded {n pos : Nat} (below : pos < n) : pos ∉ parentRows n pos true := by
  rintro ⟨j,least,most,same⟩
  rw [CyclicIndex.wrapOnce (by omega)] at same
  split at same <;> omega

theorem Listed.foundWord (h : Listed t) {c : Nat} (mem : c ∈ foundPos t.adds) :
    (Int32.ofNat (c % P.bufferSize)).toInt = (c % P.bufferSize : Nat) := by
  have below := Nat.mod_lt c P.positive
  have most := Nat.mod_le c P.bufferSize
  have small := fun large => h.small large c mem
  exact Int32.toInt_ofNat_of_lt (by omega)

theorem Listed.roomLeft (h : Listed t) : 0 < roomAfter P.bufferSize t.adds := by
  have positive := P.positive
  have below := h.counted.posBelow
  unfold roomAfter
  split
  · rename_i refused
    have := h.late refused
    omega
  · exact positive

theorem Listed.offered (h : Listed t) (some : pushedAdds t.adds ≠ []) (roomForOne : 0 < std.maxWords) :
    offeredRows std t.replay.buffer
      = {r | ∃ c ∈ (foundPos t.adds).take (roomAfter P.bufferSize t.adds), r = c % P.bufferSize} := by
  have entries : 0 < (pushedAdds t.adds).length := List.length_pos_iff.mpr some
  have left := h.roomLeft
  have nonempty : listedPos P.bufferSize t.adds ≠ [] := by
    rw [← List.length_pos_iff,listedPos,List.length_reverse,List.length_take,List.length_map,foundPos,
      spotsLength]
    omega
  rw [offeredHeld h.ring nonempty roomForOne]
  ext r
  constructor
  · rintro ⟨v,mem,word⟩
    rw [listedPos,List.mem_reverse,← List.map_take] at mem
    obtain ⟨c,inside,rfl⟩ := List.mem_map.mp mem
    rw [h.foundWord (List.mem_of_mem_take inside)] at word
    exact ⟨c,inside,(Int.ofNat_inj.mp word).symm⟩
  · rintro ⟨c,inside,rfl⟩
    refine ⟨_,?_,h.foundWord (List.mem_of_mem_take inside)⟩
    rw [listedPos,List.mem_reverse,← List.map_take]
    exact List.mem_map_of_mem inside

/- The newest add pushed has returned, and of those whose entries the ring still holds
as many as the parent draws from: all but one of a full buffer, else all there were. -/
def Covered (n : Nat) (adds : List Outcome) : Prop :=
  (pushedAdds adds).head? = some .stored ∧
    ((pushedAdds adds).take (roomAfter n adds)).count .stored = min (adds.count .stored) (n-1)

instance (n : Nat) (adds : List Outcome) : Decidable (Covered n adds) :=
  inferInstanceAs (Decidable (_ ∧ _))

theorem Listed.raisedOffersPos (h : Listed t) {older : List Outcome}
    (raised : pushedAdds t.adds = .raised::older) (roomForOne : 0 < std.maxWords) :
    offeredRows std t.replay.buffer ≠
      parentRows P.bufferSize (P.pos t.replay.buffer.parent) (P.full t.replay.buffer.parent) := by
  have positive := P.positive
  have left := h.roomLeft
  intro same
  have newest : t.adds.count .stored ∈ (foundPos t.adds).take (roomAfter P.bufferSize t.adds) := by
    obtain ⟨w,size⟩ : ∃ w, roomAfter P.bufferSize t.adds = w+1 := Nat.exists_eq_add_one.mpr left
    rw [size,foundPos,raised,spots,List.take_succ_cons,← countPushed,raised]
    exact List.mem_cons.mpr (.inl (List.count_cons_of_ne (by decide)))
  have offered : t.adds.count .stored % P.bufferSize ∈ offeredRows std t.replay.buffer := by
    rw [h.offered (by rw [raised]; exact List.cons_ne_nil _ _) roomForOne]
    exact ⟨_,newest,rfl⟩
  rw [same,h.counted.parentRows] at offered
  obtain ⟨c,least,below,row⟩ := offered
  have equal := CyclicIndex.sameSlot row (by omega) (by omega)
  omega

theorem Listed.returnedOffers (h : Listed t) {older : List Outcome}
    (returned : pushedAdds t.adds = .stored::older) (roomForOne : 0 < std.maxWords) :
    offeredRows std t.replay.buffer = rowsBack P.bufferSize (t.adds.count .stored)
      (((pushedAdds t.adds).take (roomAfter P.bufferSize t.adds)).count .stored) := by
  have newest := fun c => windowNewest (p := (· == Outcome.stored)) (x := .stored) (c := c) rfl older
    h.roomLeft
  rw [← returned] at newest
  rw [h.offered (by rw [returned]; exact List.cons_ne_nil _ _) roomForOne,← countPushed]
  ext r
  exact exists_congr fun c => (and_congr_left' (newest c)).trans and_assoc

theorem Listed.rowsExactly (h : Listed t) (some : pushedAdds t.adds ≠ [])
    (roomForOne : 0 < std.maxWords) :
    offeredRows std t.replay.buffer = parentRows P.bufferSize (P.pos t.replay.buffer.parent)
      (P.full t.replay.buffer.parent) ↔ Covered P.bufferSize t.adds := by
  cases all : pushedAdds t.adds with
  | nil => exact absurd all some
  | cons o older =>
    cases o with
    | stored =>
      have most := roomMost P.bufferSize t.adds
      have least := (List.take_sublist (roomAfter P.bufferSize t.adds) (pushedAdds t.adds)).count_le
        Outcome.stored
      have window := List.count_le_length (a := Outcome.stored)
        (l := (pushedAdds t.adds).take (roomAfter P.bufferSize t.adds))
      rw [countPushed] at least
      rw [List.length_take] at window
      rw [h.returnedOffers all roomForOne,h.counted.parentRows,
        rowsBackSame (by omega) (by omega) least (Nat.min_le_left _ _),Covered,all]
      exact (and_iff_right rfl).symm
    | raised =>
      refine ⟨fun same => absurd same (h.raisedOffersPos all roomForOne),fun covered => ?_⟩
      rw [Covered,all] at covered
      exact absurd covered.1 (by simp)
    | refused =>
      have mem : Outcome.refused ∈ pushedAdds t.adds := by simp [all]
      simp [pushedAdds] at mem

theorem coveredFilling {n : Nat} {adds : List Outcome} (positive : 0 < n) (some : 0 < adds.count .stored)
    (returned : ∀ o ∈ adds, o = .stored) : Covered n adds ↔ ¬ n ≤ adds.count .stored := by
  have all : pushedAdds adds = adds := List.filter_eq_self.mpr fun o mem => by simp [returned o mem]
  have none : .refused ∉ adds := fun mem => by simpa using returned _ mem
  have same : ∀ w, (adds.take w).count .stored = min w (adds.count .stored) := by
    intro w
    rw [List.count_eq_length.mpr fun o mem => (returned o (List.mem_of_mem_take mem)).symm,
      List.length_take,List.count_eq_length.mpr fun o mem => (returned o mem).symm]
  have newest : adds.head? = Option.some .stored := by
    cases adds with
    | nil => simp at some
    | cons o older => rw [returned o List.mem_cons_self,List.head?_cons]
  rw [Covered,all,roomAfter,if_neg none,same]
  refine ⟨fun covered => ?_,fun filling => ⟨newest,?_⟩⟩
  · have := covered.2
    omega
  · omega

theorem memorySavingRows (P : ReplayBuffer) (std : StdVector) (fb : FastReplayBuffer P)
    (made : construct P std = .ok fb) (roomForOne : 0 < std.maxWords) (ops : List (ReplayOp P)) :
    (P.bufferSize+1 < 2^64 → ∃ t, exec (Told.step std) (Told.start fb) ops = some t) ∧
    ∀ t, exec (Told.step std) (Told.start fb) ops = some t → 0 < P.size t.replay.buffer.parent →
      (offeredRows std t.replay.buffer = parentRows P.bufferSize (P.pos t.replay.buffer.parent)
          (P.full t.replay.buffer.parent) ↔ Covered P.bufferSize t.adds) ∧
      ((∀ o ∈ t.adds, o = .stored) →
        (Covered P.bufferSize t.adds ↔ P.full t.replay.buffer.parent = false)) := by
  by_cases noWrap : P.bufferSize+1 < 2^64
  · obtain ⟨fresh,parent⟩ := constructed made
    have start : Listed (Told.start fb) := by
      have pos := P.initial
      rw [← parent] at pos
      exact freshListed fresh noWrap pos.1 pos.2
    have free : Meets (Told.step std) (fun _ _ => True) (Told.start fb) ops :=
      meetsAlways (fun _ _ _ => trivial) _
    obtain ⟨u,run,h⟩ := reaches (fun t op h _ => stepListed fresh noWrap t op h) free start
    refine ⟨fun _ => ⟨u,run⟩,fun t ran nonempty => ?_⟩
    obtain rfl := Option.some.inj (ran.symm.trans run)
    rw [h.counted.size] at nonempty
    have some := Nat.lt_of_lt_of_le nonempty (keptTotal _ _)
    have entries : pushedAdds t.adds ≠ [] := by
      intro none
      rw [← countPushed,none] at some
      exact absurd some (Nat.lt_irrefl _)
    refine ⟨h.rowsExactly entries roomForOne,fun returned => ?_⟩
    rw [coveredFilling P.positive some returned,h.counted.full,decide_eq_false_iff_not]
  · refine ⟨fun small => absurd small noWrap,fun t run nonempty => ?_⟩
    rw [nothingStored made noWrap run] at nonempty
    exact absurd nonempty (Nat.lt_irrefl _)

theorem memorySavingRowsAtTwo : ∃ t, exec (Told.step StdVector.small) (Told.start twoRows)
      [.add (some 7),.add none,.add (some 8)] = some t ∧
    t.adds = [.stored,.raised,.stored] ∧ t.replay.buffer.indexRing.held = [1,1] ∧
    offeredRows StdVector.small t.replay.buffer = parentRows 2 0 true := by
  obtain ⟨made,rows⟩ := memorySavingRows (arrays 2) StdVector.small twoRows rfl (by decide)
    [.add (some 7),.add none,.add (some 8)]
  obtain ⟨t,run⟩ := made (by decide)
  refine ⟨t,run,?_⟩
  cases Option.some.inj run
  exact ⟨rfl,by decide,(rows _ run (by decide)).1.mpr (by decide)⟩

def filledTwo : FastReplayBuffer (arrays 2) :=
  ⟨Arrays.mk (Function.update (Function.update (fun _ => some 0) 0 (some 7)) 1 (some 8)) 0 true,
    ⟨2,[0,1,0],0,2⟩⟩

theorem fullBufferOffersPos :
    exec (Replay.step StdVector.small) ⟨twoRows,[]⟩ [.add (some 7),.add (some 8)]
      = some ⟨filledTwo,[some 7,some 8]⟩ ∧
    0 ∈ offeredRows StdVector.small filledTwo ∧ 0 ∉ parentRows 2 0 true ∧
    offeredRows StdVector.small filledTwo ≠ parentRows 2 0 true := by
  have offered : 0 ∈ offeredRows StdVector.small filledTwo :=
    ⟨Generator.always 0,1,[0],filledTwo,rfl,0,by decide,by decide⟩
  have excluded : 0 ∉ parentRows 2 0 true := posExcluded (by decide)
  exact ⟨rfl,offered,excluded,fun same => excluded (same ▸ offered)⟩

end FastReplay
