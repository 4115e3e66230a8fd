import Mathlib.Data.Finset.Card
import Mathlib.Data.Finset.Range
import Mathlib.Data.List.Range
import Mathlib.Data.Set.Basic
import FastReplay.CyclicIndex

/-! A store of n places filled round and round: counter j goes to place j mod n, so
after k of them the last min k n are still there. -/
namespace SlidingWindow
variable {n k i r : Nat}

def kept (n k : Nat) : Nat := min k n

theorem keptSmall (n k : Nat) : kept n k ≤ n := Nat.min_le_right k n

theorem keptTotal (n k : Nat) : kept n k ≤ k := Nat.min_le_left k n

def places (n k : Nat) : List Nat := (List.range' (k - kept n k) (kept n k)).map (· % n)

theorem placesLength : (places n k).length = kept n k := by simp [places]

theorem placesAt (small : i < kept n k) : (places n k)[i]? = some ((k - kept n k + i) % n) := by
  simp [places,small]

theorem placesGrow (room : k < n) : places n (k+1) = places n k ++ [k % n] := by
  have before : kept n k = k := Nat.min_eq_left (by omega)
  have after : kept n (k+1) = k+1 := Nat.min_eq_left (by omega)
  simp [places,before,after,List.range'_concat]

theorem placesSlide (full : n ≤ k) (positive : 0 < n) :
    ∃ rest, places n k = k % n::rest ∧ places n (k+1) = rest ++ [k % n] := by
  have before : kept n k = n := Nat.min_eq_right full
  have after : kept n (k+1) = n := Nat.min_eq_right (by omega)
  obtain ⟨m,rfl⟩ : ∃ m, n = m+1 := ⟨n-1,by omega⟩
  have lap : (k-(m+1)) % (m+1) = k % (m+1) := (Nat.mod_eq_sub_mod full).symm
  have first : k-(m+1)+1 = k+1-(m+1) := by omega
  have last : k+1-(m+1)+m = k := by omega
  refine ⟨(List.range' (k+1-(m+1)) m).map (· % (m+1)),?_,?_⟩
  · simp [places,before,List.range'_succ,lap,first]
  · simp only [places,after,List.range'_concat,List.map_append,List.map_cons,List.map_nil,
      Nat.one_mul,last]

theorem fullNext : n ≤ k ∨ k % n + 1 = n ↔ n ≤ k+1 := by
  rcases Nat.lt_or_ge k n with filling | full
  · rw [Nat.mod_eq_of_lt filling]
    omega
  · omega

theorem placesNodup : (places n k).Nodup := by
  refine List.Nodup.map_on ?_ List.nodup_range'
  intro x memX y memY same
  have small := keptSmall n k
  rw [List.mem_range'_1] at memX memY
  exact CyclicIndex.sameSlot same (by omega) (by omega)

theorem placesBelow (positive : 0 < n) (mem : r ∈ places n k) : r < kept n k := by
  obtain ⟨j,inside,rfl⟩ := List.mem_map.mp mem
  rw [List.mem_range'_1] at inside
  have below := Nat.mod_lt j positive
  unfold kept at inside ⊢
  rcases Nat.lt_or_ge k n with filling | full
  · have first : k - min k n = 0 := by omega
    rw [Nat.mod_eq_of_lt (by omega)]
    omega
  · omega

theorem placesMem (positive : 0 < n) : r ∈ places n k ↔ r < kept n k := by
  refine ⟨placesBelow positive,fun small => ?_⟩
  -- as many distinct places as there are numbers below their count
  have subset : (places n k).toFinset ⊆ Finset.range (kept n k) := by
    intro x mem
    exact Finset.mem_range.mpr (placesBelow positive (List.mem_toFinset.mp mem))
  have card : (Finset.range (kept n k)).card ≤ (places n k).toFinset.card := by
    rw [List.toFinset_card_of_nodup placesNodup,placesLength,Finset.card_range]
  have all := Finset.eq_of_subset_of_card_le subset card
  exact List.mem_toFinset.mp (all ▸ Finset.mem_range.mpr small)

theorem placeBack (n k i : Nat) :
    (k - kept n k + i) % n = (k % n + n - kept n k + i) % n := by
  have small := keptSmall n k
  have total := keptTotal n k
  have split : k % n + n - kept n k + i + n*(k/n) = k - kept n k + i + n := by
    have := Nat.mod_add_div k n
    omega
  rw [← Nat.add_mod_right (k - kept n k + i) n,← split,Nat.add_mul_mod_self_left]

section
variable {α : Type} {p : α → Bool}

/- Where the counter stood before each entry, the newest entry first. -/
def spots (p : α → Bool) : List α → List Nat
  | [] => []
  | _::older => older.countP p::spots p older

theorem spotsLength (log : List α) : (spots p log).length = log.length := by
  induction log with
  | nil => rfl
  | cons x older ih => simp [spots,ih]

theorem windowSpots (log : List α) (w c : Nat) :
    c = log.countP p ∨ c ∈ (spots p log).take w ↔
      log.countP p - (log.take w).countP p ≤ c ∧ c ≤ log.countP p := by
  induction log generalizing w with
  | nil => simp [spots]
  | cons x older ih =>
    cases w with
    | zero =>
      simp only [List.take_zero,List.countP_nil,List.not_mem_nil,or_false]
      omega
    | succ w =>
      have before := ih w
      have least := (List.take_sublist w older).countP_le (p := p)
      simp only [spots,List.take_succ_cons,List.mem_cons]
      rw [before,List.countP_cons,List.countP_cons]
      cases p x with
      | false => simp; omega
      | true => simp; omega

theorem windowNewest {x : α} (goesOn : p x = true) (older : List α) {w c : Nat} (some : 0 < w) :
    c ∈ (spots p (x::older)).take w ↔
      (x::older).countP p - ((x::older).take w).countP p ≤ c ∧ c < (x::older).countP p := by
  obtain ⟨w,rfl⟩ : ∃ v, w = v+1 := ⟨w-1,by omega⟩
  have least := (List.take_sublist w older).countP_le (p := p)
  rw [spots,List.take_succ_cons,List.take_succ_cons,List.mem_cons,windowSpots older w c,
    List.countP_cons_of_pos goesOn,List.countP_cons_of_pos goesOn]
  omega

end

def rowsBack (n k m : Nat) : Set Nat := {r | ∃ c, k-m ≤ c ∧ c < k ∧ r = c % n}

theorem rowsBackMem {m c : Nat} (window : m ≤ n) (inside : c < k) (near : k ≤ c+n) :
    c % n ∈ rowsBack n k m ↔ k-m ≤ c := by
  constructor
  · rintro ⟨d,least,below,same⟩
    rw [CyclicIndex.sameSlot same (by omega) (by omega)]
    exact least
  · exact fun least => ⟨c,least,inside,rfl⟩

theorem rowsBackSame {a b : Nat} (windowA : a ≤ n) (windowB : b ≤ n) (totalA : a ≤ k) (totalB : b ≤ k) :
    rowsBack n k a = rowsBack n k b ↔ a = b := by
  constructor
  · intro same
    rcases Nat.lt_trichotomy a b with less | equal | more
    · have mem : (k-b) % n ∈ rowsBack n k b := ⟨_,Nat.le_refl _,by omega,rfl⟩
      rw [← same,rowsBackMem windowA (by omega) (by omega)] at mem
      omega
    · exact equal
    · have mem : (k-a) % n ∈ rowsBack n k a := ⟨_,Nat.le_refl _,by omega,rfl⟩
      rw [same,rowsBackMem windowB (by omega) (by omega)] at mem
      omega
  · rintro rfl
    rfl

end SlidingWindow
