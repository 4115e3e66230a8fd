import FastReplay.InteractionLaw
import FastReplay.SampledSlots

/-! The law of sample_indices, for a random engine whose draws are independent and
uniform: what std::uniform_int_distribution makes of uniform random bits. -/
namespace FastReplay
open GuardedRun InteractionLaw

noncomputable def draws (b hi : Nat) : PMF (Fin b → Fin (hi+1)) := PMF.uniformOfFintype _

def Generator.drawn {b hi : Nat} (rows : Fin b → Fin (hi+1)) : Generator where
  draw top i := if inside : i < b then min top (rows ⟨i,inside⟩) else 0
  inRange top i := by
    split
    · exact Nat.min_le_left _ _
    · exact Nat.zero_le _

theorem Generator.drawsRow {b hi i : Nat} (rows : Fin b → Fin (hi+1)) (inside : i < b) :
    (Generator.drawn rows).draw hi i = (rows ⟨i,inside⟩).val := by
  have below := (rows ⟨i,inside⟩).isLt
  simp only [Generator.drawn,dif_pos inside]
  omega

namespace Represents
variable {rb : RingBuffer} {entries : List CInt}

theorem drawnSlots (h : Represents rb entries) (nonempty : entries ≠ []) (std : StdVector) {b : SizeT}
    (fits : b.toNat ≤ std.maxWords) (offsets : Fin b.toNat → Fin (entries.length-1+1)) :
    (RingBuffer.sampleIndices std (.drawn offsets) b).run rb
      = .ok (List.ofFn fun i => UInt64.ofNat (slot rb (offsets i))) rb := by
  obtain ⟨indices,run,_,names⟩ := h.sampleRun nonempty std (.drawn offsets) fits
  have length := congrArg List.length names
  simp only [List.length_map,List.length_range] at length
  rw [run]
  congr 1
  refine List.ext_getElem (by simp [length]) fun i inside _ => ?_
  have named := congrArg (·[i]?) names
  have drawn : i < b.toNat := by omega
  simp only [List.getElem?_map,List.getElem?_eq_getElem inside,List.getElem?_range drawn,Option.map_some,
    Option.some.injEq,Generator.drawsRow offsets drawn] at named
  rw [List.getElem_ofFn,← named,UInt64.ofNat_toNat]

theorem slotWord (h : Represents rb entries) (i : Nat) :
    (UInt64.ofNat (slot rb i)).toNat = slot rb i := by
  have small := h.admitted.small
  have below : slot rb i < rb.capacity.toNat+1 := Nat.mod_lt _ (Nat.succ_pos _)
  exact UInt64.toNat_ofNat_of_lt (by rw [UInt64.size]; omega)

theorem drawnUniform (h : Represents rb entries) (nonempty : entries ≠ []) (std : StdVector) {b : SizeT}
    (fits : b.toNat ≤ std.maxWords) {slots : Fin b.toNat → Nat} (live : ∀ i, slots i ∈ liveSlots rb) :
    ((draws b.toNat (entries.length-1)).map fun offsets =>
        (RingBuffer.sampleIndices std (.drawn offsets) b).run rb)
      (.ok (List.ofFn fun i => UInt64.ofNat (slots i)) rb) = ((entries.length : ENNReal)^b.toNat)⁻¹ := by
  have positive := List.length_pos_iff.mpr nonempty
  have offsets : ∀ i, ∃ d : Fin (entries.length-1+1), slot rb d = slots i := by
    intro i
    obtain ⟨d,small,same⟩ := h.slotsLive.surjOn (live i)
    rw [Set.mem_Iio] at small
    exact ⟨⟨d,by omega⟩,same⟩
  choose offset named using offsets
  have target : (RingBuffer.sampleIndices std (.drawn offset) b).run rb
      = .ok (List.ofFn fun i => UInt64.ofNat (slots i)) rb := by
    simp only [h.drawnSlots nonempty std fits,named]
  have injective : Function.Injective fun offsets : Fin b.toNat → Fin (entries.length-1+1) =>
      (RingBuffer.sampleIndices std (.drawn offsets) b).run rb := by
    intro left right same
    simp only [h.drawnSlots nonempty std fits,EStateM.Result.ok.injEq,and_true] at same
    funext i
    have words := congrArg UInt64.toNat (congrFun (List.ofFn_injective same) i)
    rw [h.slotWord,h.slotWord] at words
    have below := (left i).isLt
    have belowToo := (right i).isLt
    exact Fin.ext (h.slotsLive.injOn (Set.mem_Iio.mpr (by omega)) (Set.mem_Iio.mpr (by omega)) words)
  have all : entries.length-1+1 = entries.length := by omega
  rw [← target]
  refine (uniformAt injective offset).trans ?_
  rw [Fintype.card_fun,Fintype.card_fin,Fintype.card_fin,all,Nat.cast_pow]

end Represents

theorem sampleUniform (std : StdVector) (capacity : SizeT) (rb : RingBuffer)
    (made : RingBuffer.construct std capacity = .ok rb) (ops : List Op)
    (allowed : Meets (step std) Op.Allowed ⟨rb,[]⟩ ops) (s : Session RingBuffer SizeT)
    (run : exec (step std) ⟨rb,[]⟩ ops = some s) (count : SizeT)
    (sized : RingBuffer.size.run s.ring = .ok count s.ring) (nonempty : 0 < count.toNat)
    (b : SizeT) (fits : b.toNat ≤ std.maxWords) (slots : Fin b.toNat → Nat)
    (live : ∀ i, slots i ∈ liveSlots s.ring) :
    ((draws b.toNat (count.toNat-1)).map fun offsets =>
        (RingBuffer.sampleIndices std (.drawn offsets) b).run s.ring)
      (.ok (List.ofFn fun i => UInt64.ofNat (slots i)) s.ring) =
      ((count.toNat : ENNReal)^b.toNat)⁻¹ := by
  obtain ⟨h,_,word⟩ := sizedStored made allowed run sized
  rw [word] at nonempty ⊢
  exact h.drawnUniform (List.length_pos_iff.mp nonempty) std fits live

theorem sampleUniformAtTwo :
    ((draws (2 : SizeT).toNat 1).map fun offsets =>
        (RingBuffer.sampleIndices StdVector.small (.drawn offsets) 2).run ⟨2,[5,6,7],1,0⟩)
      (.ok [2,2] ⟨2,[5,6,7],1,0⟩) = (((2 : SizeT).toNat : ENNReal)^(2 : SizeT).toNat)⁻¹ := by
  have allowed : Meets (step StdVector.small) Op.Allowed ⟨⟨2,[0,0,0],0,0⟩,[]⟩
      [.push 5,.push 6,.pop (some 0),.push 7] :=
    meetsAlways (by simp [Op.Allowed]) _
  exact sampleUniform StdVector.small 2 ⟨2,[0,0,0],0,0⟩ (by decide) _ allowed
    ⟨⟨2,[5,6,7],1,0⟩,[.ok (.flag true),.ok (.flag true),.ok (.popped true (some 5)),.ok (.flag true)]⟩
    rfl 2 rfl (by decide) 2 (by decide) (fun _ => 2) (fun _ => by decide)

end FastReplay
