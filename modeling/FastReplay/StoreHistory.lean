/-! Lists that only grow at the end, read by position. -/
namespace AppendLog
variable {α : Type} {log : List α} {x y : α} {i : Nat}

theorem below (found : log[i]? = some y) : i < log.length :=
  (List.getElem?_eq_some_iff.mp found).1

theorem kept (found : log[i]? = some y) : (log ++ [x])[i]? = some y := by
  rw [List.getElem?_append_left (below found)]
  exact found

theorem latest : (log ++ [x])[log.length]? = some x := by simp

theorem entry (found : (log ++ [x])[i]? = some y) :
    log[i]? = some y ∨ i = log.length ∧ y = x := by
  rcases Nat.lt_or_ge i log.length with old | new
  · rw [List.getElem?_append_left old] at found
    exact .inl found
  · have last := below found
    simp only [List.length_append,List.length_singleton] at last
    have here : i = log.length := by omega
    subst here
    exact .inr ⟨rfl,by simpa using found.symm⟩

end AppendLog

/-! The stores to one shared index, oldest first. Its only writer stores a growing
counter modulo m; a reader may get an old store, but never goes back behind one. -/
namespace StoreHistory

structure Store where
  value : Nat
  count : Nat
  deriving DecidableEq, Repr

/- Load store number i, having seen store number seen before. -/
def load (log : List Store) (seen i : Nat) : Option Store := if seen ≤ i then log[i]? else none

structure History (m latest : Nat) (log : List Store) : Prop where
  value : ∀ (i : Nat) x, log[i]? = some x → x.value = x.count % m
  below : ∀ (i : Nat) x, log[i]? = some x → x.count ≤ latest
  ordered : ∀ (i j : Nat) x y, i ≤ j → log[i]? = some x → log[j]? = some y → x.count ≤ y.count

variable {m latest seen i c : Nat} {log : List Store} {x : Store}

theorem historyStart (m : Nat) : History m 0 [⟨0,0⟩] := by
  have only : ∀ (i : Nat) x, [Store.mk 0 0][i]? = some x → x = ⟨0,0⟩ := by
    intro i x found
    exact List.mem_singleton.mp (List.mem_of_getElem? found)
  constructor
  · intro i x found
    cases only i x found
    exact (Nat.zero_mod m).symm
  · intro i x found
    cases only i x found
    exact Nat.le_refl 0
  · intro i j x y _ first second
    cases only i x first
    cases only j y second
    exact Nat.le_refl 0

theorem History.store (h : History m latest log) {n : Nat} (grown : latest ≤ n) :
    History m n (log ++ [⟨n % m,n⟩]) where
  value i x found := by
    rcases AppendLog.entry found with old | ⟨_,rfl⟩
    · exact h.value i x old
    · rfl
  below i x found := by
    rcases AppendLog.entry found with old | ⟨_,rfl⟩
    · exact Nat.le_trans (h.below i x old) grown
    · exact Nat.le_refl _
  ordered i j x y le first second := by
    rcases AppendLog.entry second with old | ⟨_,rfl⟩
    · have inside := AppendLog.below old
      rw [List.getElem?_append_left (by omega)] at first
      exact h.ordered i j x y le first old
    · rcases AppendLog.entry first with old | ⟨_,rfl⟩
      · exact Nat.le_trans (h.below i x old) grown
      · exact Nat.le_refl _

def Knows (log : List Store) (seen c : Nat) : Prop := ∃ x, log[seen]? = some x ∧ c ≤ x.count

theorem Knows.stored (h : Knows log seen c) (y : Store) : Knows (log ++ [y]) seen c := by
  obtain ⟨x,found,least⟩ := h
  exact ⟨x,AppendLog.kept found,least⟩

theorem Knows.less {d : Nat} (h : Knows log seen c) (fewer : d ≤ c) : Knows log seen d := by
  obtain ⟨x,found,least⟩ := h
  exact ⟨x,found,Nat.le_trans fewer least⟩

theorem Knows.load (h : Knows log seen c) (history : History m latest log)
    (loaded : load log seen i = some x) : log[i]? = some x ∧ c ≤ x.count := by
  obtain ⟨y,found,least⟩ := h
  unfold StoreHistory.load at loaded
  split at loaded <;> try contradiction
  exact ⟨loaded,Nat.le_trans least (history.ordered seen i y x (by assumption) found loaded)⟩

end StoreHistory
