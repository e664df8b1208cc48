import Isthmus.Lib.Runs
import Mathlib.Data.List.Induction
import Mathlib.Data.Set.Basic

/-!
# A gate for one

A gate counts who is inside, and lets somebody in only while it counts nobody. Then at
most one is inside at a time, and the periods that each of them is inside for follow each
other. Where all pass something on while they are inside, it is in the order of their
periods.

## Main definitions

- `Gates.Counts`: the counter is the number of those inside, and no more than one is
- `Gates.period`: the times of a run at which somebody is inside
- `Gates.Relay`: the steps of a system in which those inside pass something on

## Main results

- `Gates.Counts.exclusive`: nobody is inside together with somebody else
- `Gates.Relay.ordered`: what is passed on is in the order of the periods
-/

namespace Gates

/-! ## The counter -/

section Counts

variable {α : Type} {inside : α → Bool} {x : Int} {l : List α} {i j : Nat} {a b : α}

/-- The counter is the number of those inside, which is 0 or 1. -/
structure Counts (inside : α → Bool) (x : Int) (l : List α) : Prop where
  count_eq : x = l.countP inside
  le_one : l.countP inside ≤ 1

theorem countP_set_add (ha : l[i]? = some a) :
    (l.set i b).countP inside + (if inside a = true then 1 else 0) =
      l.countP inside + if inside b = true then 1 else 0 := by
  obtain ⟨hi, rfl⟩ := List.getElem?_eq_some_iff.mp ha
  have hpos : inside l[i] = true → 0 < l.countP inside := fun h =>
    List.countP_pos_iff.mpr ⟨l[i], List.getElem_mem hi, h⟩
  rw [List.countP_set hi]
  split
  · next h =>
    have hlt := hpos h
    omega
  · omega

theorem Counts.set_same (h : Counts inside x l) (ha : l[i]? = some a)
    (hb : inside b = inside a) : Counts inside x (l.set i b) := by
  have hcount := @countP_set_add _ inside _ _ _ b ha
  rw [hb, Nat.add_right_cancel_iff] at hcount
  exact ⟨hcount ▸ h.count_eq, hcount ▸ h.le_one⟩

/-- Whoever finds that the counter is 0 may come in. -/
theorem Counts.enter (h : Counts inside 0 l) (ha : l[i]? = some a) (hout : inside a = false)
    (hb : inside b = true) : Counts inside 1 (l.set i b) := by
  have hcount := @countP_set_add _ inside _ _ _ b ha
  have hzero := h.count_eq
  rw [hout, hb] at hcount
  simp only [Bool.false_eq_true, if_false, if_true] at hcount
  constructor <;> omega

theorem Counts.leave (h : Counts inside x l) (ha : l[i]? = some a) (hin : inside a = true)
    (hb : inside b = false) : x = 1 ∧ Counts inside 0 (l.set i b) := by
  have hcount := @countP_set_add _ inside _ _ _ b ha
  have hx := h.count_eq
  have hle := h.le_one
  rw [hin, hb] at hcount
  simp only [Bool.false_eq_true, if_false, if_true] at hcount
  refine ⟨?_, ?_, ?_⟩ <;> omega

theorem Counts.append (h : Counts inside x l) (hout : inside a = false) :
    Counts inside x (l ++ [a]) := by
  have hcount : (l ++ [a]).countP inside = l.countP inside := by simp [hout]
  exact ⟨hcount ▸ h.count_eq, hcount ▸ h.le_one⟩

/-- Nobody is inside together with somebody else. -/
theorem Counts.exclusive (h : Counts inside x l) (ha : l[i]? = some a) (hin : inside a = true)
    (hb : l[j]? = some b) (hin' : inside b = true) : i = j := by
  have hle := h.le_one
  clear h
  induction l generalizing i j with
  | nil => cases ha
  | cons c l ih =>
    -- beside the first who is inside nobody is
    have hnone : inside c = true → ∀ (k : Nat) (d : α), l[k]? = some d → inside d ≠ true := by
      intro hc k d hd hd'
      rw [List.countP_cons, if_pos hc] at hle
      have hpos : 0 < l.countP inside :=
        List.countP_pos_iff.mpr ⟨d, List.mem_of_getElem? hd, hd'⟩
      omega
    cases i with
    | zero =>
      cases j with
      | zero => rfl
      | succ j =>
        cases ha
        exact absurd hin' (hnone hin j b hb)
    | succ i =>
      cases j with
      | zero =>
        cases hb
        exact absurd hin (hnone hin' i a ha)
      | succ j =>
        rw [List.countP_cons] at hle
        exact congrArg Nat.succ (ih ha hb (by omega))

end Counts

/-! ## Periods -/

section Periods

variable {S E ι : Type} {step : S → E → S} {I : S → Prop} {new inside : S → ι → Prop}
  {sent : S → List ι} {s : S} {es : List E} {e : E} {i j : ι}

/-- The times of a run at which `i` is inside. -/
def period (step : S → E → S) (inside : S → ι → Prop) (s : S) (es : List E) (i : ι) : Set Nat :=
  {k | k ≤ es.length ∧ inside (Runs.run step s (es.take k)) i}

/-- The first period is over before the second begins. -/
def Before (p q : Set Nat) : Prop := ∀ k ∈ p, ∀ m ∈ q, k < m

/-- What a step does: nobody comes in, or somebody who has not been inside while nobody
else is, or the one inside passes something on. -/
inductive Turn (new inside : S → ι → Prop) (sent : S → List ι) (s s' : S) : Prop
  | stay (hsent : sent s' = sent s) (hin : ∀ j, inside s' j → inside s j)
  | enter {i : ι} (hnew : new s i) (hsent : sent s' = sent s) (hin : ∀ j, inside s' j → j = i)
  | send {i : ι} (hi : inside s i) (hfirst : i ∉ sent s) (hsent : sent s' = sent s ++ [i])
    (hin : ∀ j, inside s' j → inside s j)

/-- A system whose steps are such turns where the invariant holds. -/
structure Relay (step : S → E → S) (I : S → Prop) (new inside : S → ι → Prop)
    (sent : S → List ι) : Prop where
  keep {s : S} {e : E} : I s → I (step s e)
  outside {s : S} {i : ι} : I s → new s i → ¬inside s i
  new_of_step {s : S} {e : E} {i : ι} : I s → new (step s e) i → new s i
  exclusive {s : S} {i j : ι} : I s → inside s i → inside s j → i = j
  turn {s : S} {e : E} : I s → Turn new inside sent s (step s e)

/-- The periods after a run: what was passed on is in their order, and whoever has still to
pass something on comes after all who have. -/
structure Ordered (step : S → E → S) (new inside : S → ι → Prop) (sent : S → List ι) (s : S)
    (es : List E) : Prop where
  sorted : (sent (Runs.run step s es)).Pairwise fun i j => ¬inside (Runs.run step s es) i ∧
    Before (period step inside s es i) (period step inside s es j)
  waiting : ∀ j, inside (Runs.run step s es) j → j ∉ sent (Runs.run step s es) →
    ∀ i ∈ sent (Runs.run step s es), Before (period step inside s es i) (period step inside s es j)
  unused : ∀ i, new (Runs.run step s es) i → period step inside s es i = ∅
  nonempty : ∀ i ∈ sent (Runs.run step s es), (period step inside s es i).Nonempty

theorem mem_period_concat {k : Nat} : k ∈ period step inside s (es ++ [e]) i ↔
    k ∈ period step inside s es i ∨
      k = es.length + 1 ∧ inside (Runs.run step s (es ++ [e])) i := by
  simp only [period, Set.mem_ofPred_eq, List.length_append, List.length_singleton]
  by_cases hk : k ≤ es.length
  · rw [List.take_append_of_le_length hk]
    constructor
    · exact fun h => .inl ⟨hk, h.2⟩
    · rintro (h | ⟨rfl, -⟩)
      · exact ⟨Nat.le_succ_of_le hk, h.2⟩
      · exact absurd hk (Nat.not_succ_le_self _)
  · constructor
    · rintro ⟨hle, h⟩
      obtain rfl : k = es.length + 1 := by omega
      rw [List.take_of_length_le (by simp)] at h
      exact .inr ⟨rfl, h⟩
    · rintro (⟨hle, -⟩ | ⟨rfl, h⟩)
      · exact absurd hle hk
      · rw [List.take_of_length_le (by simp)]
        exact ⟨Nat.le_refl _, h⟩

theorem Before.concat (h : Before (period step inside s es i) (period step inside s es j))
    (hi : ¬inside (Runs.run step s (es ++ [e])) i) :
    Before (period step inside s (es ++ [e]) i) (period step inside s (es ++ [e]) j) := by
  intro k hk m hm
  obtain hk | ⟨-, hin⟩ := mem_period_concat.mp hk
  · obtain hm | ⟨rfl, -⟩ := mem_period_concat.mp hm
    · exact h k hk m hm
    · exact Nat.lt_succ_of_le hk.1
  · exact absurd hin hi

/-- Whoever comes in for the first time comes after all the others. -/
theorem before_concat_of_empty (h : period step inside s es j = ∅)
    (hi : ¬inside (Runs.run step s (es ++ [e])) i) :
    Before (period step inside s (es ++ [e]) i) (period step inside s (es ++ [e]) j) := by
  refine Before.concat ?_ hi
  rw [h]
  intro k _ m hm
  exact absurd hm (Set.notMem_empty m)

theorem Relay.run_keep (h : Relay step I new inside sent) (hs : I s) (es : List E) :
    I (Runs.run step s es) := Runs.run_keep (fun _ _ => h.keep) hs

theorem nonempty_concat (h : (period step inside s es i).Nonempty) :
    (period step inside s (es ++ [e]) i).Nonempty := by
  obtain ⟨k, hk⟩ := h
  exact ⟨k, mem_period_concat.mpr (.inl hk)⟩

theorem Ordered.unused_concat (h : Relay step I new inside sent) (hs : I s)
    (ho : Ordered step new inside sent s es) (i : ι)
    (hi : new (Runs.run step s (es ++ [e])) i) : period step inside s (es ++ [e]) i = ∅ := by
  refine Set.eq_empty_of_forall_notMem fun k hk => ?_
  obtain hk | ⟨-, hin⟩ := mem_period_concat.mp hk
  · rw [Runs.run_append] at hi
    rw [ho.unused i (h.new_of_step (h.run_keep hs es) hi)] at hk
    exact hk
  · exact h.outside (h.run_keep hs _) hi hin

theorem Ordered.stay (h : Relay step I new inside sent) (hs : I s)
    (ho : Ordered step new inside sent s es)
    (hsent : sent (Runs.run step s (es ++ [e])) = sent (Runs.run step s es))
    (hin : ∀ j, inside (Runs.run step s (es ++ [e])) j → inside (Runs.run step s es) j) :
    Ordered step new inside sent s (es ++ [e]) where
  sorted := by
    rw [hsent]
    refine ho.sorted.imp fun ⟨hi, hbefore⟩ => ?_
    exact ⟨fun hi' => hi (hin _ hi'), hbefore.concat fun hi' => hi (hin _ hi')⟩
  waiting j hj hmem i hi := by
    rw [hsent] at hmem hi
    refine (ho.waiting j (hin j hj) hmem i hi).concat fun hi' => hmem ?_
    rw [h.exclusive (h.run_keep hs _) hj hi']
    exact hi
  unused := ho.unused_concat h hs
  nonempty i hi := by
    rw [hsent] at hi
    exact nonempty_concat (ho.nonempty i hi)

theorem Ordered.enter (h : Relay step I new inside sent) (hs : I s)
    (ho : Ordered step new inside sent s es) (hnew : new (Runs.run step s es) i)
    (hsent : sent (Runs.run step s (es ++ [e])) = sent (Runs.run step s es))
    (hin : ∀ j, inside (Runs.run step s (es ++ [e])) j → j = i) :
    Ordered step new inside sent s (es ++ [e]) := by
  have hempty := ho.unused i hnew
  have hout : ∀ j ∈ sent (Runs.run step s es), ¬inside (Runs.run step s (es ++ [e])) j := by
    intro j hj hj'
    have hnonempty := ho.nonempty j hj
    rw [hin j hj', hempty] at hnonempty
    exact Set.not_nonempty_empty hnonempty
  constructor
  case sorted =>
    rw [hsent]
    exact ho.sorted.imp_of_mem fun hj _ hbefore => ⟨hout _ hj, hbefore.2.concat (hout _ hj)⟩
  case waiting =>
    intro j hj _ k hk
    rw [hsent] at hk
    rw [hin j hj]
    exact before_concat_of_empty hempty (hout k hk)
  case unused => exact ho.unused_concat h hs
  case nonempty =>
    intro j hj
    rw [hsent] at hj
    exact nonempty_concat (ho.nonempty j hj)

theorem Ordered.send (h : Relay step I new inside sent) (hs : I s)
    (ho : Ordered step new inside sent s es) (hi : inside (Runs.run step s es) i)
    (hfirst : i ∉ sent (Runs.run step s es))
    (hsent : sent (Runs.run step s (es ++ [e])) = sent (Runs.run step s es) ++ [i])
    (hin : ∀ j, inside (Runs.run step s (es ++ [e])) j → inside (Runs.run step s es) j) :
    Ordered step new inside sent s (es ++ [e]) := by
  have honly : ∀ j, inside (Runs.run step s (es ++ [e])) j → j = i := fun j hj =>
    h.exclusive (h.run_keep hs es) (hin j hj) hi
  have hout : ∀ j ∈ sent (Runs.run step s es), ¬inside (Runs.run step s (es ++ [e])) j := by
    intro j hj hj'
    rw [honly j hj'] at hj
    exact hfirst hj
  constructor
  case sorted =>
    rw [hsent, List.pairwise_append]
    refine ⟨?_, List.pairwise_singleton _ _, fun j hj k hk => ?_⟩
    · exact ho.sorted.imp_of_mem fun hj _ hbefore => ⟨hout _ hj, hbefore.2.concat (hout _ hj)⟩
    · rw [List.mem_singleton.mp hk]
      exact ⟨hout j hj, (ho.waiting i hi hfirst j hj).concat (hout j hj)⟩
  case waiting =>
    intro j hj hmem
    rw [hsent, honly j hj] at hmem
    exact absurd (List.mem_append_right _ List.mem_cons_self) hmem
  case unused => exact ho.unused_concat h hs
  case nonempty =>
    intro j hj
    rw [hsent] at hj
    rcases List.mem_append.mp hj with hj | hj
    · exact nonempty_concat (ho.nonempty j hj)
    · rw [List.mem_singleton.mp hj]
      exact nonempty_concat ⟨es.length, Nat.le_refl _, by rwa [List.take_length]⟩

/-- What is passed on in a run is in the order of the periods of those it is from. -/
theorem Relay.ordered (h : Relay step I new inside sent) (hs : I s) (hsent : sent s = [])
    (hout : ∀ i, ¬inside s i) (es : List E) : Ordered step new inside sent s es := by
  induction es using List.reverseRecOn with
  | nil =>
    constructor
    case sorted => simp [hsent]
    case waiting => exact fun j hj => absurd hj (hout j)
    case unused => exact fun i _ => Set.eq_empty_of_forall_notMem fun k hk => hout i (by simpa using hk.2)
    case nonempty => simp [hsent]
  | append_singleton es e ih =>
    have hturn : Turn new inside sent (Runs.run step s es) (Runs.run step s (es ++ [e])) := by
      rw [Runs.run_append]
      exact h.turn (h.run_keep hs es)
    cases hturn with
    | stay hsent hin => exact ih.stay h hs hsent hin
    | enter hnew hsent hin => exact ih.enter h hs hnew hsent hin
    | send hi hfirst hsent hin => exact ih.send h hs hi hfirst hsent hin

end Periods

end Gates
