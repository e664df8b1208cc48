import Isthmus.Lib.Loops

/-!
# Delimited readers

A reader takes what it needs from the front of its source. It is delimited if it knows by
itself where that ends: what follows makes no difference, and where a part is missing, it
comes to the end of the source. So what is cut short is never taken for something else.

## Main definitions

- `Fed`: a state with a source
- `Takes`: what a reader takes from the source
- `Decided`: how a reader ends is decided by what it takes
- `Delimited`: the same, where it can leave a state with the rest of the source

## Main results

- `Delimited.bind`: one delimited reader after another
- `Paced.run_decided`: a loop of delimited steps
-/

/-- A state with a source. -/
class Fed (M : Type) (β : outParam Type) where
  rest : M → List β
  feed : M → List β → M

instance {β : Type} : Fed (List β) β := ⟨id, fun _ s => s⟩

/-- What was read besides has no source. -/
instance {α M β : Type} [Fed M β] : Fed (α × M) β :=
  ⟨fun p => Fed.rest p.2, fun p s => (p.1, Fed.feed p.2 s)⟩

namespace Cuts

open Fed

variable {β M M' M'' ε o o' : Type} [Fed M β] [Fed M' β] [Fed M'' β]

/-! ## What is taken -/

/-- The reader takes `used`, whatever follows. Where a part of it is missing, it fails. -/
structure Takes (f : M → o) (fail : o → Prop) (m : M) (used : List β) (out : List β → o) :
    Prop where
  all : ∀ s, f (feed m (used ++ s)) = out s
  cut : ∀ k < used.length, fail (f (feed m (used.take k)))

/-- How the reader ends is decided by what it takes, if it comes that far. -/
def Decided (f : M → o) (fail : o → Prop) (m : M) : Prop :=
  fail (f m) ∨ ∃ used s, rest m = used ++ s ∧ Takes f fail m used fun _ => f m

/-- The reader takes a part, and leaves the rest. -/
def Leaves (f : M → o) (fail : o → Prop) (mk : M' → o) (m : M) (c : M') : Prop :=
  ∃ used, rest m = used ++ rest c ∧ Takes f fail m used fun s => mk (feed c s)

variable {f : M → o} {F : M → o'} {G : M' → o'} {fail : o → Prop} {fail' : o' → Prop}
  {mk : M' → o} {m : M} {c : M'} {used used' : List β} {out : List β → o'}

/-- A reader goes on after another. -/
theorem Takes.follow (h : Takes f fail m used fun s => mk (feed c s))
    (hnext : ∀ x y, f x = mk y → F x = G y) (hfail : ∀ x, fail (f x) → fail' (F x))
    (hG : Takes G fail' c used' out) : Takes F fail' m (used ++ used') out where
  all s := by
    rw [List.append_assoc]
    exact (hnext _ _ (h.all (used' ++ s))).trans (hG.all s)
  cut k hk := by
    rw [List.take_append]
    by_cases hlt : k < used.length
    · rw [Nat.sub_eq_zero_of_le (Nat.le_of_lt hlt), List.take_zero, List.append_nil]
      exact hfail _ (h.cut k hlt)
    · rw [List.length_append] at hk
      rw [List.take_of_length_le (Nat.le_of_not_lt hlt)]
      rw [hnext _ _ (h.all _)]
      exact hG.cut _ (by omega)

theorem Leaves.decided (h : Leaves f fail mk m c) (hf : f m = mk c)
    (hnext : ∀ x y, f x = mk y → F x = G y) (hfail : ∀ x, fail (f x) → fail' (F x))
    (hG : Decided G fail' c) : Decided F fail' m := by
  have hm : F m = G c := hnext m c hf
  obtain ⟨used, hrest, htakes⟩ := h
  obtain hG | ⟨used', s, hs, htakes'⟩ := hG
  · exact .inl (hm ▸ hG)
  · refine .inr ⟨used ++ used', s, by rw [hrest, hs, List.append_assoc], ?_⟩
    rw [hm]
    exact htakes.follow hnext hfail htakes'

theorem Leaves.trans {g : M' → o'} {mk' : M'' → o'} {d : M''} (h : Leaves f fail mk m c)
    (hnext : ∀ x y, f x = mk y → F x = g y) (hfail : ∀ x, fail (f x) → fail' (F x))
    (hg : Leaves g fail' mk' c d) : Leaves F fail' mk' m d := by
  obtain ⟨used, hrest, htakes⟩ := h
  obtain ⟨used', hrest', htakes'⟩ := hg
  exact ⟨used ++ used', by rw [hrest, hrest', List.append_assoc],
    htakes.follow hnext hfail htakes'⟩

/-- A reader that ends in a part ends in the same way with another one after it. -/
theorem Decided.stop (h : Decided f fail m) (hsame : ∀ x, f x = f m → F x = F m)
    (hfail : ∀ x, fail (f x) → fail' (F x)) : Decided F fail' m := by
  obtain h | ⟨used, s, hrest, htakes⟩ := h
  · exact .inl (hfail m h)
  · exact .inr ⟨used, s, hrest, fun s => hsame _ (htakes.all s),
      fun k hk => hfail _ (htakes.cut k hk)⟩

/-- What needs nothing from the source takes nothing. -/
theorem decided_of_const (h : ∀ s, f (feed m s) = f m) : Decided f fail m :=
  .inr ⟨[], rest m, rfl, h, fun _ hk => absurd hk (Nat.not_lt_zero _)⟩

/-- How a reader ends, by how much of the source it is given. -/
theorem Decided.exists_point (h : Decided f fail m) : fail (f m) ∨
    ∃ n ≤ (rest m).length, (∀ s, f (feed m ((rest m).take n ++ s)) = f m) ∧
      ∀ k < n, fail (f (feed m ((rest m).take k))) := by
  obtain h | ⟨used, s, hrest, htakes⟩ := h
  · exact .inl h
  · have htake : ∀ k ≤ used.length, (rest m).take k = used.take k := by
      intro k hk
      rw [hrest, List.take_append_of_le_length hk]
    refine .inr ⟨used.length, ?_, fun s => ?_, fun k hk => ?_⟩
    · rw [hrest, List.length_append]
      exact Nat.le_add_right _ _
    · rw [htake _ (Nat.le_refl _), List.take_length]
      exact htakes.all s
    · rw [htake k (Nat.le_of_lt hk)]
      exact htakes.cut k hk

/-! ## Delimited readers -/

/-- The reader leaves the rest, or ends with an error that is decided by what it took. -/
structure Delimited (eof : ε) (f : M → Except ε M') : Prop where
  leaves : ∀ {m c}, f m = .ok c → Leaves f (· = .error eof) .ok m c
  decided : ∀ {m e}, f m = .error e → Decided f (· = .error eof) m

/-- One reader after another. -/
theorem Delimited.bind {eof : ε} {f : M → Except ε M'} {g : M' → Except ε M''}
    (hf : Delimited eof f) (hg : Delimited eof g) : Delimited eof fun m => f m >>= g := by
  have hnext : ∀ x y, f x = .ok y → f x >>= g = g y := fun x y h => by rw [h]; rfl
  have hfail : ∀ x, f x = .error eof → f x >>= g = .error eof := fun x h => by rw [h]; rfl
  constructor
  · intro m d h
    cases hm : f m with
    | error e =>
      rw [hm] at h
      cases h
    | ok c =>
      have hc : g c = .ok d := (hnext m c hm).symm.trans h
      exact (hf.leaves hm).trans hnext hfail (hg.leaves hc)
  · intro m e h
    cases hm : f m with
    | error e' => exact (hf.decided hm).stop (fun x hx => by rw [hx]) hfail
    | ok c =>
      have hc : g c = .error e := (hnext m c hm).symm.trans h
      exact (hf.leaves hm).decided hm hnext hfail (hg.decided hc)

/-- Nothing is taken. -/
theorem delimited_ok {eof : ε} {φ : M → M'} (hrest : ∀ m, rest m = rest (φ m))
    (hfeed : ∀ m s, φ (feed m s) = feed (φ m) s) : Delimited eof fun m => .ok (φ m) where
  leaves {m c} h := by
    cases h
    exact ⟨[], hrest m, fun s => congrArg Except.ok (hfeed m s),
      fun k hk => absurd hk (Nat.not_lt_zero k)⟩
  decided h := by cases h

theorem delimited_error (eof e : ε) : Delimited eof fun _ : M => (.error e : Except ε M') where
  leaves h := by cases h
  decided _ := decided_of_const fun _ => rfl

/-- A reader is chosen by what does not depend on the source. -/
theorem delimited_ite {eof : ε} {p : M → Prop} [DecidablePred p] {f g : M → Except ε M'}
    (hp : ∀ m s, p (feed m s) ↔ p m) (hf : Delimited eof f) (hg : Delimited eof g) :
    Delimited eof fun m => if p m then f m else g m where
  leaves {m c} h := by
    by_cases hm : p m
    · rw [if_pos hm] at h
      obtain ⟨used, hrest, htakes⟩ := hf.leaves h
      exact ⟨used, hrest, fun s => (if_pos ((hp m _).mpr hm)).trans (htakes.all s),
        fun k hk => (if_pos ((hp m _).mpr hm)).trans (htakes.cut k hk)⟩
    · rw [if_neg hm] at h
      obtain ⟨used, hrest, htakes⟩ := hg.leaves h
      exact ⟨used, hrest, fun s => (if_neg (mt (hp m _).mp hm)).trans (htakes.all s),
        fun k hk => (if_neg (mt (hp m _).mp hm)).trans (htakes.cut k hk)⟩
  decided {m e} h := by
    have hpos (hm : p m) : ∀ s, p (feed m s) := fun s => (hp m s).mpr hm
    have hneg (hm : ¬p m) : ∀ s, ¬p (feed m s) := fun s => mt (hp m s).mp hm
    by_cases hm : p m
    · rw [if_pos hm] at h
      refine (hf.decided h).imp (fun heof => (if_pos hm).trans heof) ?_
      rintro ⟨used, s, hrest, htakes⟩
      exact ⟨used, s, hrest, fun s => (if_pos (hpos hm _)).trans ((htakes.all s).trans
        (if_pos hm).symm), fun k hk => (if_pos (hpos hm _)).trans (htakes.cut k hk)⟩
    · rw [if_neg hm] at h
      refine (hg.decided h).imp (fun heof => (if_neg hm).trans heof) ?_
      rintro ⟨used, s, hrest, htakes⟩
      exact ⟨used, s, hrest, fun s => (if_neg (hneg hm _)).trans ((htakes.all s).trans
        (if_neg hm).symm), fun k hk => (if_neg (hneg hm _)).trans (htakes.cut k hk)⟩

/-- A reader is told by what was read besides. -/
theorem delimited_prod {α : Type} {eof : ε} {f : α × M → Except ε M'}
    (h : ∀ a, Delimited eof fun m => f (a, m)) : Delimited eof f where
  leaves {p _} hp :=
    have ⟨used, hrest, htakes⟩ := (h p.1).leaves hp
    ⟨used, hrest, htakes.all, htakes.cut⟩
  decided {p _} hp := ((h p.1).decided hp).imp id fun ⟨used, s, hrest, htakes⟩ =>
    ⟨used, s, hrest, htakes.all, htakes.cut⟩

/-- A loop whose steps are delimited. -/
structure Paced {ρ : Type} (eof : ε) (l : Loop M (Except ε ρ)) : Prop where
  leaves : ∀ {m m'}, l.step m = .inr m' → Leaves l.step (· = .inl (.error eof)) .inr m m'
  decided : ∀ {m r}, l.step m = .inl r → Decided l.step (· = .inl (.error eof)) m

/-- How the loop ends is decided by what it takes. -/
theorem Paced.run_decided {ρ : Type} {eof : ε} {l : Loop M (Except ε ρ)} (h : Paced eof l)
    (m : M) : Decided l.run (· = .error eof) m := by
  have hfail : ∀ x, l.step x = .inl (.error eof) → l.run x = .error eof := fun _ => Loop.run_stop
  obtain ⟨m', hreach, hstop⟩ := Loop.run_eq_iff.mp (rfl : l.run m = l.run m)
  generalize l.run m = r at hstop
  induction hreach using Relation.ReflTransGen.head_induction_on with
  | refl =>
    refine (h.decided hstop).stop (fun x hx => ?_) hfail
    rw [Loop.run_stop (hx.trans hstop), Loop.run_stop hstop]
  | head hs _ ih => exact (h.leaves hs).decided hs (fun _ _ => Loop.run_next) hfail ih

end Cuts
