import Mathlib.Data.Finset.Card
import Mathlib.Data.List.Rotate
import Mathlib.Data.Nat.ModEq

/-! Cyclic intervals of a fixed store. A store of m slots is read from slot h
onwards, wrapping after slot m-1. Nothing here knows who moves the two ends. -/
namespace CyclicIndex
variable {α : Type}

theorem wrapOnce {m x : Nat} (small : x < 2*m) : x % m = if x < m then x else x-m := by
  split
  · exact Nat.mod_eq_of_lt (by assumption)
  · rw [Nat.mod_eq_sub_mod (by omega),Nat.mod_eq_of_lt (by omega)]

theorem sameSlot {m j k : Nat} (same : j % m = k % m) (below : j < k+m) (above : k < j+m) : j = k := by
  refine Nat.ModEq.eq_of_abs_lt same ?_
  rw [abs_lt]
  omega

theorem slotsDistinct {m h i j : Nat} (hi : i < m) (hj : j < m)
    (same : (h+i) % m = (h+j) % m) : i = j := by
  have := sameSlot same (by omega) (by omega)
  omega

theorem stepSlot (m h i : Nat) : ((h+i) % m + 1) % m = (h+(i+1)) % m := by
  rw [Nat.mod_add_mod,Nat.add_assoc]

def gap (m h t : Nat) : Nat := (t + m - h) % m

theorem gapBelow {m : Nat} (pos : 0 < m) (h t : Nat) : gap m h t < m := Nat.mod_lt _ pos

theorem gapAt {m h n : Nat} (head : h < m) (small : n < m) : gap m h ((h+n) % m) = n := by
  unfold gap
  rw [wrapOnce (x := h+n) (by omega)]
  split
  · have shift : h+n+m-h = n+m := by omega
    rw [shift,Nat.add_mod_right,Nat.mod_eq_of_lt small]
  · have shift : h+n-m+m-h = n := by omega
    rw [shift,Nat.mod_eq_of_lt small]

theorem gapReaches {m h t : Nat} (head : h ≤ t+m) : (h + gap m h t) % m = t % m := by
  have round : h+(t+m-h) = t+m := by omega
  rw [gap,Nat.add_mod_mod,round,Nat.add_mod_right]

theorem gapCounters {m a b n : Nat} (small : n < m) :
    gap m (a % m) (b % m) = n ↔ (a+n) % m = b % m := by
  have below : a % m < m := Nat.mod_lt _ (by omega)
  constructor
  · rintro rfl
    rw [← Nat.mod_add_mod,gapReaches (by omega),Nat.mod_mod]
  · intro same
    rw [← same,← Nat.mod_add_mod]
    exact gapAt below small

theorem gapSelf {m : Nat} (h : Nat) : gap m h h = 0 := by
  have shift : h+m-h = m := by omega
  rw [gap,shift,Nat.mod_self]

def arc (m h t : Nat) : Finset Nat :=
  {i ∈ Finset.range m | if h ≤ t then h ≤ i ∧ i < t else h ≤ i ∨ i < t}

theorem memArc {m h t i : Nat} :
    i ∈ arc m h t ↔ i < m ∧ (h ≤ t → h ≤ i ∧ i < t) ∧ (t < h → h ≤ i ∨ i < t) := by
  simp only [arc,Finset.mem_filter,Finset.mem_range]
  split <;> omega

theorem arcStop (m h t : Nat) : t ∉ arc m h t := by
  rw [memArc]
  omega

theorem arcBijective {m h n : Nat} (head : h < m) (small : n < m) :
    Set.BijOn (fun d => (h+d) % m) (Set.Iio n) (arc m h ((h+n) % m)) := by
  have stop := wrapOnce (m := m) (x := h+n) (by omega)
  refine ⟨?_,?_,?_⟩
  · intro d below
    rw [Set.mem_Iio] at below
    rw [Finset.mem_coe,memArc,stop]
    dsimp only
    rw [wrapOnce (x := h+d) (by omega)]
    split <;> split <;> omega
  · intro d below e belowToo same
    rw [Set.mem_Iio] at below belowToo
    exact slotsDistinct (by omega) (by omega) same
  · intro i inside
    rw [Finset.mem_coe,memArc,stop] at inside
    have offset : (h + (if h ≤ i then i-h else i+m-h)) % m = i := by
      rw [wrapOnce (by split <;> omega)]
      split <;> split <;> omega
    refine ⟨if h ≤ i then i-h else i+m-h,?_,offset⟩
    rw [Set.mem_Iio]
    split at inside <;> split <;> omega

theorem arcCard {m h n : Nat} (head : h < m) (small : n < m) : (arc m h ((h+n) % m)).card = n := by
  have counted : arc m h ((h+n) % m) = (Finset.range n).image fun d => (h+d) % m := by
    apply Finset.coe_injective
    rw [Finset.coe_image,Finset.coe_range,(arcBijective head small).image_eq]
  rw [counted,Finset.card_image_of_injOn,Finset.card_range]
  rw [Finset.coe_range]
  exact (arcBijective head small).injOn

theorem arcIsPrefix {m h n : Nat} (head : h < m) (small : n < m) (some : 0 < n) :
    arc m h ((h+n) % m) = Finset.range n ↔ h = 0 := by
  constructor
  · intro same
    by_contra moved
    have slots : ∀ i, i ∈ arc m h ((h+n) % m) ↔ i < n := fun i => by rw [same,Finset.mem_range]
    -- slot 0 is in the arc, so the arc wraps and its stop comes before h, in the prefix
    have zero := memArc.mp ((slots 0).mpr some)
    have wraps : (h+n) % m < h := by omega
    have start : h < n := (slots h).mp (memArc.mpr ⟨head,by omega,by omega⟩)
    exact arcStop m h _ ((slots _).mpr (by omega))
  · rintro rfl
    ext i
    rw [memArc,Nat.zero_add,Nat.mod_eq_of_lt small,Finset.mem_range]
    omega

def Holds (buf : List α) (h : Nat) (entries : List α) : Prop :=
  ∀ i, i < entries.length → buf[(h+i) % buf.length]? = entries[i]?

theorem holdsNil (buf : List α) (h : Nat) : Holds buf h [] := by
  intro i small
  simp at small

theorem holdsElsewhere {buf : List α} {h j : Nat} {entries : List α} {v : α}
    (holds : Holds buf h entries) (outside : entries.length ≤ j) (inside : j < buf.length) :
    Holds (buf.set ((h+j) % buf.length) v) h entries := by
  intro i small
  rw [List.length_set,List.getElem?_set_ne]
  · exact holds i small
  · intro same
    have := slotsDistinct (by omega) (by omega) same
    omega

theorem holdsAppend {buf : List α} {h : Nat} {entries : List α} {v : α}
    (holds : Holds buf h entries) (room : entries.length < buf.length) :
    Holds (buf.set ((h+entries.length) % buf.length) v) h (entries ++ [v]) := by
  intro i small
  simp only [List.length_append,List.length_singleton] at small
  by_cases old : i < entries.length
  · rw [List.getElem?_append_left old]
    exact holdsElsewhere holds (Nat.le_refl _) room i old
  · have last : i = entries.length := by omega
    subst i
    have inside : (h+entries.length) % buf.length < buf.length := Nat.mod_lt _ (by omega)
    simp [List.length_set,inside]

theorem holdsDrop {buf : List α} {h n : Nat} {entries : List α} (holds : Holds buf h entries) :
    Holds buf ((h+n) % buf.length) (entries.drop n) := by
  intro i small
  rw [List.length_drop] at small
  rw [List.getElem?_drop,Nat.mod_add_mod,Nat.add_assoc]
  exact holds (n+i) (by omega)

theorem holdsTake {buf : List α} {h : Nat} {entries : List α} (n : Nat) (holds : Holds buf h entries) :
    Holds buf h (entries.take n) := by
  intro i small
  rw [List.length_take] at small
  rw [List.getElem?_take_of_lt (by omega)]
  exact holds i (by omega)

theorem holdsSet {buf : List α} {h x : Nat} {entries : List α} {v : α} (holds : Holds buf h entries)
    (head : h < buf.length) (fits : entries.length ≤ buf.length) (inside : x < buf.length) :
    Holds (buf.set x v) h (entries.set (gap buf.length h x) v) := by
  intro i small
  rw [List.length_set] at small
  rw [List.length_set]
  by_cases here : gap buf.length h x = i
  · have slot : (h+i) % buf.length = x := by
      rw [← here,gapReaches (by omega),Nat.mod_eq_of_lt inside]
    rw [slot,here,List.getElem?_set_self inside,List.getElem?_set_self small]
  · have other : x ≠ (h+i) % buf.length := by
      intro same
      rw [same,gapAt head (by omega)] at here
      exact here rfl
    rw [List.getElem?_set_ne other,List.getElem?_set_ne here]
    exact holds i small

theorem holdsRound {buf : List α} {h : Nat} {entries : List α} {v : α} (holds : Holds buf h entries)
    (head : h < buf.length) (full : entries.length = buf.length) :
    Holds (buf.set h v) ((h+1) % buf.length) (entries.drop 1 ++ [v]) := by
  have rest : (entries.drop 1).length = buf.length-1 := by rw [List.length_drop,full]
  have next := holdsAppend (v := v) (holdsDrop (n := 1) holds) (by omega)
  have round : ((h+1) % buf.length + (entries.drop 1).length) % buf.length = h := by
    have shift : h+1+(buf.length-1) = h+buf.length := by omega
    rw [rest,Nat.mod_add_mod,shift,Nat.add_mod_right,Nat.mod_eq_of_lt head]
  rwa [round] at next

/- The store after a list of values was written one by one, going round from slot
t. A slot keeps what it had until its turn comes, and then that value for a lap. -/
structure WrittenFrom (before buf : List α) (t : Nat) (written : List α) : Prop where
  length : buf.length = before.length
  untouched : ∀ d, written.length ≤ d → d < buf.length →
    buf[(t+d) % buf.length]? = before[(t+d) % buf.length]?
  latest : ∀ j, j < written.length → written.length ≤ j+buf.length →
    buf[(t+j) % buf.length]? = written[j]?

theorem writtenNone (buf : List α) (t : Nat) : WrittenFrom buf buf t [] :=
  ⟨rfl,fun _ _ _ => rfl,fun j below _ => by simp at below⟩

theorem WrittenFrom.next {before buf : List α} {t : Nat} {written : List α}
    (h : WrittenFrom before buf t written) (some : 0 < buf.length) (v : α) :
    WrittenFrom before (buf.set ((t+written.length) % buf.length) v) t (written ++ [v]) := by
  have inside : (t+written.length) % buf.length < buf.length := Nat.mod_lt _ some
  refine ⟨by rw [List.length_set]; exact h.length,?_,?_⟩
  · intro d later below
    simp only [List.length_set,List.length_append,List.length_singleton] at later below ⊢
    rw [List.getElem?_set_ne]
    · exact h.untouched d (by omega) below
    · intro same
      have := sameSlot same (by omega) (by omega)
      omega
  · intro j earlier lap
    simp only [List.length_set,List.length_append,List.length_singleton] at earlier lap ⊢
    rcases Nat.lt_or_ge j written.length with old | new
    · rw [List.getElem?_append_left old,List.getElem?_set_ne]
      · exact h.latest j old (by omega)
      · intro same
        have := sameSlot same (by omega) (by omega)
        omega
    · have last : j = written.length := by omega
      subst last
      simp [inside]

def window (buf : List α) (h n : Nat) : List α := (buf.rotate h).take n

theorem windowLength {buf : List α} {h n : Nat} (small : n ≤ buf.length) :
    (window buf h n).length = n := by
  simp [window,small]

theorem windowContiguous {buf : List α} {h n : Nat} (inside : h+n ≤ buf.length) :
    window buf h n = (buf.drop h).take n := by
  rw [window,List.rotate_eq_drop_append_take (by omega),
    List.take_append_of_le_length (by rw [List.length_drop]; omega)]

theorem windowWrapped {buf : List α} {h n : Nat} (below : h ≤ buf.length)
    (wraps : buf.length ≤ h+n) (small : n ≤ buf.length) :
    window buf h n = (buf.drop h).take (buf.length-h) ++ buf.take (n-(buf.length-h)) := by
  have rest : (buf.drop h).length = buf.length-h := List.length_drop
  have second : min (n-(buf.length-h)) h = n-(buf.length-h) := Nat.min_eq_left (by omega)
  rw [window,List.rotate_eq_drop_append_take below,List.take_append,List.take_take,rest,second,
    List.take_of_length_le (i := n) (by omega),List.take_of_length_le (i := buf.length-h) (by omega)]

theorem windowHolds (buf : List α) (h n : Nat) (small : n ≤ buf.length) :
    Holds buf h (window buf h n) := by
  intro i below
  rw [windowLength small] at below
  rw [window,List.getElem?_take_of_lt below,List.getElem?_rotate (by omega),Nat.add_comm]

theorem holdsWindow {buf : List α} {h : Nat} {entries : List α}
    (holds : Holds buf h entries) (small : entries.length ≤ buf.length) :
    window buf h entries.length = entries := by
  apply List.ext_getElem?
  intro i
  by_cases inside : i < entries.length
  · rw [← holds i inside]
    exact (windowHolds buf h _ small i (by rwa [windowLength small])).symm
  · rw [List.getElem?_eq_none (by rw [windowLength small]; omega),List.getElem?_eq_none (by omega)]

end CyclicIndex

/-! A first-in first-out queue that holds at most cap entries, oldest first. -/
namespace BoundedQueue
variable {α : Type}

def offer (cap : Nat) (entries : List α) (v : α) : Bool × List α :=
  if entries.length < cap then (true,entries ++ [v]) else (false,entries)

def poll : List α → Option α × List α
  | [] => (none,[])
  | v::rest => (some v,rest)

theorem pollRest (entries : List α) : (poll entries).2 = entries.drop 1 := by
  cases entries <;> rfl

end BoundedQueue
