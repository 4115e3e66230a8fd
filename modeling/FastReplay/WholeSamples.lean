import FastReplay.ActorLearner

/-! When a sample taken beside a running actor is made of whole transitions, and that
every step outside these conditions can still spoil one. -/
namespace FastReplay.ActorLearner
open GuardedRun

variable {n : Nat} {gathers : List Field} {s t : State}

/- Every row read so far belongs to one finished add, in the arrays still to be
read as well. The first add to store a transition in row r is add number r. -/
def Steady (s : State) : Prop := match s.learner with
  | .gathering left sample => sample.read ≠ [] → ∀ (i r : Nat), sample.rows[i]? = some r →
      r < sample.since ∧ ∃ k, k < sample.since ∧
        (∀ f cells, (f,cells) ∈ sample.read → cells[i]? = some (some k)) ∧
        ∀ f ∈ left, s.cells f r = some k
  | _ => True

theorem latestAdd {n j k : Nat} (positive : 0 < n) (below : j < k) :
    ∃ m, m < k ∧ k ≤ m+n ∧ m % n = j % n := by
  refine ⟨j+n*((k-1-j)/n),?_,?_,Nat.add_mul_mod_self_left _ _ _⟩
  · have := Nat.mul_div_le (k-1-j) n
    omega
  · have := Nat.lt_mul_div_succ (k-1-j) positive
    rw [Nat.mul_add,Nat.mul_one] at this
    omega

theorem Inv.last (inv : Inv n gathers s) {j : Nat} (below : j < s.adds)
    (free : ∀ f, ¬ (j % n = s.pos ∧ Written s f)) :
    ∃ k, k < s.adds ∧ ∀ f, s.cells f (j % n) = some k := by
  obtain ⟨m,before,recent,same⟩ := latestAdd inv.positive below
  refine ⟨m,before,fun f => ?_⟩
  rw [← same]
  exact inv.kept f m before recent (by rw [same]; exact free f)

def Stored (s : State) (r : Nat) : Prop := ∃ k, k < finished s ∧ ∀ f, s.cells f r = some k

theorem Inv.storedEarlier (inv : Inv n gathers s) {j : Nat} (below : j < s.adds)
    (free : ∀ f, ¬ (j % n = s.pos ∧ Written s f)) : Stored s (j % n) := by
  obtain ⟨k,before,cells⟩ := inv.last below free
  have finish := finishedLeast s rfl
  exact ⟨k,by omega,cells⟩

theorem Inv.storedUntouched (inv : Inv n gathers s) (pc : s.actor = .writing Field.all)
    (full : s.full = true) : Stored s s.pos := by
  have positive := inv.positive
  have filled : n ≤ s.adds := of_decide_eq_true (inv.full.symm.trans full)
  have here : s.pos = (s.adds-n) % n := by rw [inv.pos,Nat.mod_eq_sub_mod filled]
  rw [here]
  refine inv.storedEarlier (by omega) ?_
  intro f both
  have written := both.2
  simp only [Written,pc] at written
  exact written f.inAll

theorem Inv.storedWritten (inv : Inv n gathers s) (pc : s.actor = .writing []) : Stored s s.pos := by
  refine ⟨s.adds,by simp [finished,pc],?_⟩
  intro f
  exact inv.fresh f (by simp [Written,pc])

theorem Inv.storedElsewhere (inv : Inv n gathers s) {j : Nat} (below : j < announced s)
    (apart : j % n ≠ s.pos) : Stored s (j % n) := by
  have most : announced s ≤ s.adds+1 := by unfold announced; split <;> omega
  rcases Nat.lt_or_ge j s.adds with old | new
  · exact inv.storedEarlier old fun f both => apart both.1
  · have last : j = s.adds := by omega
    exact absurd (by rw [last,inv.pos]) apart

theorem Inv.ready (inv : Inv n gathers s) {r : Nat} (known : Announced n s r)
    (ready : ¬ Unready s r) : Stored s r := by
  obtain ⟨j,below,rfl⟩ := known
  by_cases own : j % n = s.pos
  · unfold Unready at ready
    split at ready
    · rename_i left pc
      rw [own]
      by_cases done : left = []
      · exact inv.storedWritten (by rw [pc,done])
      · have untouched : left = Field.all ∧ s.full = true := by
          by_contra other
          refine ready ⟨own,done,fun all => ?_⟩
          by_contra full
          exact other ⟨all,by simpa using full⟩
        exact inv.storedUntouched (by rw [pc,untouched.1]) untouched.2
    · rename_i idle
      rw [announcedBefore idle] at below
      exact inv.storedEarlier below fun f both => notWritten idle f both.2
  · exact inv.storedElsewhere below own

theorem unwritten (unfinished : s.actor ≠ .writing []) : ∃ f, ¬ Written s f := by
  cases pc : s.actor with
  | writing left =>
    cases left with
    | nil => exact absurd pc unfinished
    | cons f rest => exact ⟨f,by simp [Written,pc]⟩
  | _ => exact ⟨.observation,notWritten (by simp [pc]) _⟩

theorem Inv.firstStored (inv : Inv n gathers s) {r : Nat} (small : r < n) (stored : Stored s r) :
    r < finished s := by
  obtain ⟨k,_,cells⟩ := stored
  have least := finishedLeast s rfl
  by_contra late
  rcases Nat.lt_or_eq_of_le (show s.adds ≤ r by omega) with beyond | next
  · have nothing := inv.empty .observation r beyond small
    rw [cells] at nothing
    contradiction
  · have unfinished : s.actor ≠ .writing [] := by
      intro done
      rw [finished,if_pos done] at late
      omega
    obtain ⟨f,ahead⟩ := unwritten unfinished
    have here : s.pos = r := by rw [inv.pos,next,Nat.mod_eq_of_lt small]
    have nothing := inv.blank f (by omega) ahead
    rw [here,cells] at nothing
    contradiction

theorem readCells {sample : Sample} {f : Field} {i r : Nat} (row : sample.rows[i]? = some r)
    (s : State) : (sample.rows.map (s.cells f))[i]? = some (s.cells f r) := by
  rw [List.getElem?_map,row]
  rfl

theorem gatherSteady {f left sample} (inv : Inv n gathers s) (steady : Steady s)
    (pc : s.learner = .gathering (f::left) sample) (calm : Undisturbed s .learn)
    (moved : learn gathers s = some t) : Steady t := by
  have learner := inv.learner
  simp only [LearnerAt,pc] at learner
  simp only [Steady,pc] at steady
  simp only [Undisturbed,pc] at calm
  simp only [learn,pc] at moved
  cases Option.some.inj moved
  intro _ i r row
  dsimp only at row ⊢
  by_cases first : sample.read = []
  · have known := learner.1 r (List.mem_of_getElem? row)
    have stored := inv.ready known (calm first r (List.mem_of_getElem? row))
    have small : r < n := by
      obtain ⟨j,_,rfl⟩ := known
      exact Nat.mod_lt _ inv.positive
    have written := inv.firstStored small stored
    obtain ⟨k,before,cells⟩ := stored
    rw [if_pos first]
    refine ⟨written,k,before,?_,fun g _ => cells g⟩
    intro g gathered mem
    simp only [first,List.nil_append,List.mem_singleton,Prod.mk.injEq] at mem
    obtain ⟨rfl,rfl⟩ := mem
    rw [readCells row,cells]
  · obtain ⟨written,k,before,old,ahead⟩ := steady first i r row
    rw [if_neg first]
    refine ⟨written,k,before,?_,fun g mem => ahead g (List.mem_cons_of_mem _ mem)⟩
    intro g gathered mem
    rcases List.mem_append.mp mem with earlier | now
    · exact old g gathered earlier
    · simp only [List.mem_singleton,Prod.mk.injEq] at now
      obtain ⟨rfl,rfl⟩ := now
      rw [readCells row,ahead _ List.mem_cons_self]

theorem actOnly (moved : act n s = some t) : t.learner = s.learner ∧ t.results = s.results := by
  unfold act at moved
  split at moved <;> try contradiction
  · cases Option.some.inj moved
    exact ⟨rfl,rfl⟩
  · split at moved <;> (cases Option.some.inj moved; exact ⟨rfl,rfl⟩)
  · cases Option.some.inj moved
    exact ⟨rfl,rfl⟩
  · cases Option.some.inj moved
    exact ⟨rfl,rfl⟩

theorem actSteady (steady : Steady s) (calm : Undisturbed s .act) (moved : act n s = some t) :
    Steady t := by
  cases at' : s.learner with
  | gathering left sample =>
    simp only [Steady,at'] at steady
    unfold act at moved
    split at moved <;> try contradiction
    · cases Option.some.inj moved
      simpa only [Steady,at'] using steady
    · split at moved <;> (cases Option.some.inj moved; simpa only [Steady,at'] using steady)
    · rename_i f rest pc
      cases Option.some.inj moved
      simp only [Undisturbed,at',pc] at calm
      simp only [Steady,at']
      intro begun i r row
      obtain ⟨written,k,before,old,ahead⟩ := steady begun i r row
      refine ⟨written,k,before,old,fun g mem => ?_⟩
      have apart : ¬ (g = f ∧ r = s.pos) := by
        rintro ⟨rfl,rfl⟩
        exact calm begun (List.mem_of_getElem? row) mem
      rw [if_neg apart]
      exact ahead g mem
    · cases Option.some.inj moved
      simpa only [Steady,at'] using steady
  | _ => simp only [Steady,(actOnly moved).1,at']

theorem stepSteady {a} (inv : Inv n gathers s) (steady : Steady s) (calm : Undisturbed s a)
    (moved : step n gathers s a = some t) : Steady t := by
  cases a with
  | add =>
    simp only [step,beginAdd] at moved
    split at moved <;> try contradiction
    cases Option.some.inj moved
    exact steady
  | act => exact actSteady steady calm moved
  | sample std gen batchSize =>
    simp only [step,beginSample] at moved
    split at moved <;> try contradiction
    split at moved
    · cases Option.some.inj moved
      trivial
    · cases Option.some.inj moved
      exact steady
  | learn =>
    cases at' : s.learner with
    | idle => simp [step,learn,at'] at moved
    | drawn physInds =>
      simp only [step,learn,at'] at moved
      obtain ⟨values,read,moved⟩ := Option.bind_eq_some_iff.mp moved
      cases Option.some.inj moved
      exact fun begun => absurd rfl begun
    | gathering left sample =>
      cases left with
      | cons f left => exact gatherSteady inv steady at' calm moved
      | nil =>
        simp only [step,learn,at'] at moved
        cases Option.some.inj moved
        trivial

def Sound (sample : Sample) : Prop := Whole sample ∧ ∀ r ∈ sample.rows, r < sample.since

theorem returnsSound {a} (all : ∀ f, f ∈ gathers) (inv : Inv n gathers s) (steady : Steady s)
    (moved : step n gathers s a = some t) (old : ∀ sample ∈ s.results, Sound sample) :
    ∀ sample ∈ t.results, Sound sample := by
  have learner := inv.learner
  cases a with
  | add =>
    simp only [step,beginAdd] at moved
    split at moved <;> try contradiction
    cases Option.some.inj moved
    exact old
  | act => rwa [(actOnly moved).2]
  | sample std gen batchSize =>
    simp only [step,beginSample] at moved
    split at moved <;> try contradiction
    split at moved <;> (cases Option.some.inj moved; exact old)
  | learn =>
    simp only [step,learn] at moved
    split at moved <;> try contradiction
    · obtain ⟨values,read,moved⟩ := Option.bind_eq_some_iff.mp moved
      cases Option.some.inj moved
      exact old
    · cases Option.some.inj moved
      exact old
    · rename_i sample pc
      cases Option.some.inj moved
      simp only [LearnerAt,pc,List.append_nil] at learner
      simp only [Steady,pc] at steady
      intro other mem
      rcases List.mem_append.mp mem with earlier | now
      · exact old other earlier
      · cases List.mem_singleton.mp now
        have begun : sample.read ≠ [] := by
          intro nothing
          have some := all .observation
          rw [← learner.2.1,nothing] at some
          contradiction
        refine ⟨⟨fun f => by rw [learner.2.1]; exact all f,fun i inside => ?_⟩,fun r mem => ?_⟩
        · obtain ⟨_,k,before,read,_⟩ := steady begun i _ (List.getElem?_eq_getElem inside)
          exact ⟨k,before,read⟩
        · obtain ⟨i,inside,rfl⟩ := List.mem_iff_getElem.mp mem
          exact (steady begun i _ (List.getElem?_eq_getElem inside)).1

theorem runSound {acts} (positive : 0 < n) (all : ∀ f, f ∈ gathers)
    (calm : Meets (step n gathers) Undisturbed (init n) acts)
    (run : exec (step n gathers) (init n) acts = some s) : ∀ sample ∈ s.results, Sound sample := by
  have final := preservedMeeting
    (I := fun s => Inv n gathers s ∧ Steady s ∧ ∀ sample ∈ s.results, Sound sample)
    (fun s a t ⟨inv,steady,old⟩ calm moved =>
      ⟨stepKeeps inv moved,stepSteady inv steady calm moved,returnsSound all inv steady moved old⟩)
    calm run ⟨initInv positive,trivial,by simp [init]⟩
  exact final.2.2

/-! What is left out of these conditions reaches the defect: the learner has only to
finish its sample. -/

def finishedSample (s : State) (left : List Field) (sample : Sample) : Sample where
  rows := sample.rows
  since := if sample.read = [] ∧ left ≠ [] then finished s else sample.since
  read := sample.read ++ left.map fun f => (f,sample.rows.map (s.cells f))

theorem learnerFinishes (n : Nat) (gathers : List Field) {left sample}
    (pc : s.learner = .gathering left sample) :
    ∃ t, exec (step n gathers) s (List.replicate (left.length+1) .learn) = some t ∧
      t.results = s.results ++ [finishedSample s left sample] := by
  induction left generalizing s sample with
  | nil =>
    refine ⟨{ s with results := s.results ++ [sample], learner := .idle },?_,?_⟩
    · simp [exec,step,learn,pc,List.replicate]
    · simp [finishedSample]
  | cons f left ih =>
    have read : learn gathers s = some { s with
        learner := .gathering left { sample with
          since := if sample.read = [] then finished s else sample.since
          read := sample.read ++ [(f,sample.rows.map (s.cells f))] } } := by rw [learn,pc]
    obtain ⟨t,later,results⟩ := ih (s := { s with
      learner := .gathering left { sample with
        since := if sample.read = [] then finished s else sample.since
        read := sample.read ++ [(f,sample.rows.map (s.cells f))] } }) rfl
    refine ⟨t,?_,?_⟩
    · rw [List.length_cons,List.replicate_succ]
      exact execCons.mpr ⟨_,read,later⟩
    · rw [results]
      simp [finishedSample,List.append_assoc]

theorem spoiled {left : List Field} {sample : Sample} {f : Field} {r : Nat} (ahead : f ∈ left)
    (row : r ∈ sample.rows)
    (bad : ∀ k, s.cells f r = some k → (finishedSample s left sample).since ≤ k) :
    ¬ Whole (finishedSample s left sample) := by
  rintro ⟨_,rows⟩
  obtain ⟨i,inside,here⟩ := List.mem_iff_getElem.mp row
  obtain ⟨k,before,read⟩ := rows i inside
  have entry := read f (sample.rows.map (s.cells f))
    (List.mem_append_right _ (List.mem_map.mpr ⟨f,ahead,rfl⟩))
  rw [readCells (by rw [List.getElem?_eq_getElem inside,here])] at entry
  have := bad k (Option.some.inj entry)
  omega

theorem properSuffix {left : List Field} (suffix : left.IsSuffix Field.all) (part : left ≠ Field.all) :
    .observation ∉ left := by
  obtain ⟨front,split⟩ := suffix
  cases front with
  | nil => exact absurd split part
  | cons f front =>
    simp only [Field.all,List.cons_append,List.cons.injEq] at split
    intro mem
    have later : Field.observation ∈ front ++ left := List.mem_append_right _ mem
    rw [split.2] at later
    revert later
    decide

theorem unreadyGather {f left sample} {r : Nat} (inv : Inv n gathers s) (all : ∀ f, f ∈ gathers)
    (pc : s.learner = .gathering (f::left) sample) (first : sample.read = []) (row : r ∈ sample.rows)
    (unready : Unready s r) : ¬ Whole (finishedSample s (f::left) sample) := by
  have learner := inv.learner
  simp only [LearnerAt,pc,first,List.map_nil,List.nil_append] at learner
  unfold Unready at unready
  split at unready
  · rename_i rest writing
    obtain ⟨own,unfinished,untouched⟩ := unready
    have since : (finishedSample s (f::left) sample).since = s.adds := by
      simp [finishedSample,first,finished,writing,unfinished]
    have ahead : ∀ g, g ∈ f::left := fun g => by rw [learner.2.1]; exact all g
    by_cases part : rest = Field.all
    · have filling : s.adds < n := by
        have full := inv.full
        rw [untouched part] at full
        exact Nat.not_le.mp (of_decide_eq_false full.symm)
      refine spoiled (ahead .observation) row fun k found => ?_
      rw [own,inv.blank _ filling (by simp [Written,writing,part,Field.inAll])] at found
      contradiction
    · have written : Written s .observation := by
        simp only [Written,writing]
        exact properSuffix (inv.suffix rest writing) part
      refine spoiled (ahead .observation) row fun k found => ?_
      rw [own,inv.fresh _ written] at found
      rw [since,Option.some.inj found]
  · contradiction

theorem tornWrite {f left rest sample} (inv : Inv n gathers s) (writing : s.actor = .writing (f::rest))
    (pc : s.learner = .gathering left sample) (begun : sample.read ≠ []) (row : s.pos ∈ sample.rows)
    (ahead : f ∈ left) (moved : act n s = some t) : ¬ Whole (finishedSample t left sample) := by
  have learner := inv.learner
  simp only [LearnerAt,pc] at learner
  have since := learner.2.2 begun
  rw [finishedBefore (by simp [writing])] at since
  simp only [act,writing] at moved
  cases Option.some.inj moved
  refine spoiled ahead row fun k found => ?_
  simp only [and_self,if_true,Option.some.injEq] at found
  simp only [finishedSample,begun,false_and,if_false]
  omega

theorem disturbedSpoils {a} (inv : Inv n gathers s) (all : ∀ f, f ∈ gathers)
    (disturbed : ¬ Undisturbed s a) (moved : step n gathers s a = some t) :
    ∃ acts u, exec (step n gathers) t acts = some u ∧ ∃ sample ∈ u.results, ¬ Whole sample := by
  cases a with
  | add => exact absurd trivial disturbed
  | sample std gen batchSize => exact absurd trivial disturbed
  | act =>
    simp only [Undisturbed] at disturbed
    split at disturbed
    · rename_i f rest left sample writing pc
      simp only [Classical.not_imp,Classical.not_not] at disturbed
      obtain ⟨begun,row,ahead⟩ := disturbed
      have torn := tornWrite inv writing pc begun row ahead moved
      obtain ⟨u,run,results⟩ := learnerFinishes n gathers ((actOnly moved).1.trans pc)
      exact ⟨_,u,run,_,by rw [results]; exact List.mem_append_right _ (List.mem_singleton_self _),torn⟩
    · exact absurd trivial disturbed
  | learn =>
    simp only [Undisturbed] at disturbed
    split at disturbed
    · rename_i f left sample pc
      simp only [Classical.not_imp,not_forall,Classical.not_not] at disturbed
      obtain ⟨first,r,row,unready⟩ := disturbed
      have torn := unreadyGather inv all pc first row unready
      obtain ⟨u,run,results⟩ := learnerFinishes n gathers pc
      rw [List.replicate_succ] at run
      obtain ⟨next,now,later⟩ := execCons.mp run
      cases Option.some.inj (now.symm.trans moved)
      exact ⟨_,u,later,_,by rw [results]; exact List.mem_append_right _ (List.mem_singleton_self _),torn⟩
    · exact absurd trivial disturbed

theorem samplesWholeUndisturbed (n : Nat) (positive : 0 < n) (gathers : List Field)
    (all : ∀ f, f ∈ gathers) :
    (∀ acts s, Meets (step n gathers) Undisturbed (init n) acts →
      exec (step n gathers) (init n) acts = some s →
        ∀ sample ∈ s.results, Whole sample ∧ ∀ r ∈ sample.rows, r < sample.since) ∧
    ∀ acts s a t, exec (step n gathers) (init n) acts = some s → step n gathers s a = some t →
      ¬ Undisturbed s a →
      ∃ later u, exec (step n gathers) t later = some u ∧ ∃ sample ∈ u.results, ¬ Whole sample := by
  refine ⟨fun acts s calm run => runSound positive all calm run,?_⟩
  intro acts s a t run moved disturbed
  exact disturbedSpoils (runInv positive run) all disturbed moved

instance (s : State) (r : Nat) : Decidable (Unready s r) := by
  unfold Unready
  split <;> infer_instance

instance (s : State) (a : Action) : Decidable (Undisturbed s a) := by
  unfold Undisturbed
  split
  · split <;> infer_instance
  · split <;> infer_instance
  · infer_instance

def besideSample : List Action :=
  [.add] ++ List.replicate 7 .act ++
    [.add,.act,.sample StdVector.small (Generator.always 0) 1,.act,.learn,.act,.learn,.act,.learn,
      .learn,.act,.learn,.act,.learn,.learn]

theorem samplesWholeBeside : ∃ s, exec (step 2 Field.all) (init 2) besideSample = some s ∧
    s.results = [⟨[0],1,Field.all.map fun f => (f,[some 0])⟩] ∧
    ∀ sample ∈ s.results, Whole sample ∧ ∀ r ∈ sample.rows, r < sample.since :=
  ⟨_,rfl,rfl,(samplesWholeUndisturbed 2 Nat.two_pos Field.all Field.inAll).1
    besideSample _ (by decide) rfl⟩

theorem sampledBeforeWritten :
    ∃ s, exec (step 1 Field.all) (init 1) ([.add,.act] ++
        [.sample StdVector.small (Generator.always 0) 1] ++ List.replicate 7 .learn) = some s ∧
      s.results = [⟨[0],0,Field.all.map fun f => (f,[none])⟩] ∧
      ¬ Whole ⟨[0],0,Field.all.map fun f => (f,[none])⟩ := by
  refine ⟨_,rfl,rfl,?_⟩
  rintro ⟨_,rows⟩
  obtain ⟨k,before,_⟩ := rows 0 (by decide)
  exact Nat.not_lt_zero k before

end FastReplay.ActorLearner
