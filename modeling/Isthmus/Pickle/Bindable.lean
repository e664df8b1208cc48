import Isthmus.Pickle.Restricted

/-!
# What can be bound

The calls of `bind` are laid out over the graph as it was decoded. Binding makes
them in order up to the first that does not take its value, and comes to an end
with nil or an error where none of those that it makes stores nil in an interface,
or is asked for string keys behind which there is a cycle.

## Main definitions

- `visits`: the calls, over the values that were decoded
- `Visit.Fits`, `Visit.Fails`: the calls that take their values, and those that have no end

## Main results

- `bind_returns_iff`: when `bind` returns nil or an error
-/

namespace Isthmus.Pickle

open Recursion

variable {τ : Type}

/-! ## The calls -/

/-- A call of `bind` with a value, or one that is always refused (a field whose key is
not there, a key for a struct), or a call that is not followed any more. A value may
have been read from a place in a list. -/
inductive Visit (τ : Type) where
  | value (place : Option (Nat × Nat)) (v : Value) (kind : DestKind τ) (reqSK : Bool)
  | missing
  | deep

/-- The call for a key. -/
def KeyKind.visit (v : Value) : KeyKind → Visit τ
  | .int size => .value none v (.int size) false
  | .string => .value none v .string false
  | .bool => .value none v .bool false
  | .struct => .missing
  | .interface => .value none v .interface false

/-- The calls of `bind`, in order and down to some depth, if none of them fails and
no dict is replaced. -/
def visits (rt : Runtime) (typ : τ → DestKind τ) (g : Graph) :
    Nat → List Nat → Option (Nat × Nat) → Value → DestKind τ → Bool → List (Visit τ)
  | 0, _, _, _, _, _ => [.deep]
  | n + 1, call, place, v, kind, reqSK =>
    .value place v kind reqSK ::
      match kind with
      | .slice elem =>
        let visitsAt (i : Nat) (place : Option (Nat × Nat)) (v : Value) :=
          visits rt typ g n (i :: call) place v (typ elem) reqSK
        match g.shape v with
        | .list r items =>
          (List.range items.length).flatMap fun i => visitsAt i (some (r, i)) (items.getD i .none)
        | .set items => (rt.entries call items).zipIdx.flatMap fun p => visitsAt p.2 none p.1
        | .tuple items => items.zipIdx.flatMap fun p => visitsAt p.2 none p.1
        | _ => []
      | .struct fields =>
        match g.shape v with
        | .dict items =>
          fields.zipIdx.flatMap fun p =>
            if p.1.isRemainder then
              visits rt typ g n (p.2 :: call) none v (typ p.1.type) p.1.reqSK
            else
              match p.1.find rt items with
              | none => [.missing]
              | some w => visits rt typ g n (p.2 :: call) none w (typ p.1.type) p.1.reqSK
        | .object arguments =>
          (fields.zip arguments).zipIdx.flatMap fun p =>
            visits rt typ g n (p.2 :: call) none p.1.2 (typ p.1.1.type)
              (p.1.1.tag == requireStringKeysTag)
        | _ => []
      | .map key elem =>
        match g.shape v with
        | .dict items =>
          (rt.entries call items).zipIdx.flatMap fun p =>
            key.visit p.1.1 ::
              visits rt typ g n (p.2 :: call) none p.1.2 (typ elem) reqSK
        | _ => []
      | _ => []

/-- The kind takes values of this type. -/
def Graph.Takes (g : Graph) (v : Value) : DestKind τ → Prop
  | .int _ => ∃ n, v = .int n
  | .string => ∃ s, v = .string s
  | .bool => ∃ b, v = .bool b
  | .slice _ => (∃ r items, g.shape v = .list r items) ∨ (∃ items, g.shape v = .set items) ∨
    ∃ items, g.shape v = .tuple items
  | .struct fields => g.IsDict v ∨
    ∃ arguments, g.shape v = .object arguments ∧ arguments.length = fields.length
  | .map _ _ => g.IsDict v
  | .interface => True

/-- The value was read from one of these places. -/
def Replaced (P : Set (Nat × Nat)) (place : Option (Nat × Nat)) : Prop := ∃ p ∈ P, place = some p

namespace Visit

variable (g : Graph) (P : Set (Nat × Nat))

/-- The call takes its value, where the dicts in the places `P` were replaced. -/
def Fits : Visit τ → Prop
  | .value place v kind _ =>
    g.Takes v kind ∧ (kind ≠ .interface → ¬(Replaced P place ∧ g.IsDict v))
  | .missing => False
  | .deep => True

/-- The call stores nil in an interface, or asks for string keys behind which there
is a cycle, or is not followed any more. -/
def Fails : Visit τ → Prop
  | .value _ v .interface reqSK => v = .none ∨ reqSK ∧ ¬Grounded g.children v
  | .deep => True
  | _ => False

/-- The call stores nil in an interface. -/
def StoresNil : Visit τ → Prop
  | .value _ v .interface _ => v = .none
  | _ => False

/-- The call asks for string keys behind which there is a cycle, or is not followed any
more. -/
def Endless : Visit τ → Prop
  | .value _ v .interface reqSK => reqSK ∧ ¬Grounded g.children v
  | .deep => True
  | _ => False

/-- The places in which dicts are replaced after the call. -/
def next : Visit τ → Set (Nat × Nat)
  | .value _ v .interface true => P ∪ g.places v
  | _ => P

/-- The call succeeds. -/
def Succeeds (x : Visit τ) : Prop := x.Fits g P ∧ ¬x.Fails g

/-- `restrictMapKeysToStrings` goes deeper than this in the call. -/
def Exceeds (depth : Nat) : Visit τ → Prop
  | .value _ v .interface true => ¬Within g.children depth v
  | _ => False

/-- Binding stops in this way at the call. -/
def Stops (depth : Nat) (x : Visit τ) : Stop → Prop
  | .error _ => ¬x.Fits g P
  | .panic => x.StoresNil
  | .overflow => x.Endless g ∨ x.Exceeds g depth

variable {g} {x : Visit τ}

theorem fails_iff : x.Fails g ↔ x.StoresNil ∨ x.Endless g := by
  rcases x with ⟨place, v, kind, reqSK⟩ | _ | _
  · cases kind with
    | interface => exact Iff.rfl
    | _ => exact (or_self_iff).symm
  · exact (or_self_iff).symm
  · exact (or_iff_right id).symm

end Visit

/-! ## The recursion follows the calls -/

/-- What binding does when it makes these calls: it makes all of them, or stops at
the first that does not succeed. -/
def Follows {α : Type} (g₀ : Graph) (depth : Nat) (P : Set (Nat × Nat)) (l : List (Visit τ)) :
    Except Stop (α × Graph) → Prop
  | .ok (_, g) =>
    Passes (Visit.Succeeds g₀) (Visit.next g₀) P l ∧ Kept g₀ (after (Visit.next g₀) P l) g
  | .error stop => ∃ P' x, Comes (Visit.Succeeds g₀) (Visit.next g₀) P l P' x ∧
    x.Stops g₀ P' depth stop

section Follows

variable {α β : Type} {g₀ g : Graph} {depth : Nat} {P : Set (Nat × Nat)} {l l' : List (Visit τ)}
  {x : Visit τ} {o : Except Stop (α × Graph)}

theorem follows_nil {a : α} (hg : Kept g₀ P g) :
    Follows g₀ depth P ([] : List (Visit τ)) (.ok (a, g)) := ⟨trivial, hg⟩

theorem Follows.map {f : α → β} (h : Follows g₀ depth P l o) :
    Follows g₀ depth P l (o.map fun p => (f p.1, p.2)) := by
  cases o with
  | error stop => exact h
  | ok p => exact h

theorem Follows.wrap {key : GoString} (h : Follows g₀ depth P l o) :
    Follows g₀ depth P l (o.mapError (.wrap key)) := by
  rcases o with (_ | _ | _) | p <;> exact h

/-- A call that succeeds is followed by the rest. -/
theorem Follows.cons (hx : x.Succeeds g₀ P) (h : Follows g₀ depth (x.next g₀ P) l o) :
    Follows g₀ depth P (x :: l) o := by
  cases o with
  | error stop =>
    obtain ⟨P', y, hcomes, hy⟩ := h
    exact ⟨P', y, .there hx hcomes, hy⟩
  | ok p => exact ⟨⟨hx, h.1⟩, h.2⟩

/-- Binding stops at the first call. -/
theorem follows_stop {stop : Stop} (hx : x.Stops g₀ P depth stop) :
    Follows (α := α) g₀ depth P (x :: l) (.error stop) := ⟨P, x, .here P x l, hx⟩

theorem Follows.bind {f : α × Graph → Except Stop (β × Graph)} (h : Follows g₀ depth P l o)
    (hf : ∀ a g, Kept g₀ (after (Visit.next g₀) P l) g →
      Follows g₀ depth (after (Visit.next g₀) P l) l' (f (a, g))) :
    Follows g₀ depth P (l ++ l') (o >>= f) := by
  cases o with
  | error stop =>
    obtain ⟨P', y, hcomes, hy⟩ := h
    exact ⟨P', y, hcomes.append_left, hy⟩
  | ok p =>
    obtain ⟨a, g⟩ := p
    obtain ⟨hpass, hkept⟩ := h
    have hrest := hf a g hkept
    change Follows g₀ depth P (l ++ l') (f (a, g))
    cases hres : f (a, g) with
    | error stop =>
      rw [hres] at hrest
      obtain ⟨P', y, hcomes, hy⟩ := hrest
      exact ⟨P', y, .append_right hpass hcomes, hy⟩
    | ok q =>
      rw [hres] at hrest
      refine ⟨passes_append.mpr ⟨hpass, hrest.1⟩, ?_⟩
      rw [after_append]
      exact hrest.2

/-- A loop follows the calls of its turns. -/
theorem follows_bindEach {f : α → Graph → Except Stop (β × Graph)} {calls : α → List (Visit τ)}
    {l : List α} (hf : ∀ a ∈ l, ∀ P g, Kept g₀ P g → Follows g₀ depth P (calls a) (f a g))
    (hg : Kept g₀ P g) : Follows g₀ depth P (l.flatMap calls) (bindEach f l g) := by
  induction l generalizing P g with
  | nil => exact follows_nil hg
  | cons a l ih =>
    rw [List.flatMap_cons, bindEach]
    refine (hf a List.mem_cons_self P g hg).bind fun b g₁ hg₁ => ?_
    exact (ih (fun c hc => hf c (List.mem_cons_of_mem a hc)) hg₁).map

end Follows

/-! ## The kinds -/

section Kinds

variable {rt : Runtime} {typ : τ → DestKind τ} {g₀ g : Graph} {depth n : Nat}
  {P : Set (Nat × Nat)} {call : List Nat} {place : Option (Nat × Nat)} {v w : Value}
  {kind : DestKind τ} {reqSK : Bool}

/-- A map that was made of a dict is taken by interfaces only. -/
theorem bind_stringMap (hw : g.IsStringMap w) (hkind : kind ≠ .interface) :
    ∃ err, bind rt typ depth (n + 1) call w kind reqSK g = .error (.error err) := by
  obtain ⟨s, m, rfl, hs⟩ := hw
  have hshape : g.shape (.ref s) = .other := by simp only [Graph.shape, hs]
  cases kind with
  | interface => exact absurd rfl hkind
  | int size => exact ⟨_, rfl⟩
  | string => exact ⟨_, rfl⟩
  | bool => exact ⟨_, rfl⟩
  | slice elem =>
    simp only [bind, hshape]
    exact ⟨_, rfl⟩
  | struct fields =>
    simp only [bind, hshape]
    exact ⟨_, rfl⟩
  | map key elem =>
    simp only [bind, hshape]
    exact ⟨_, rfl⟩

/-- What binding at a smaller depth does. -/
def FollowsAll (rt : Runtime) (typ : τ → DestKind τ) (g₀ : Graph) (depth n : Nat) : Prop :=
  ∀ {call place v w kind reqSK P g}, Kept g₀ P g → Stands g₀ g (Replaced P place) v w →
    Settled g₀ P (Replaced P place) v →
    Follows g₀ depth P (visits rt typ g₀ n call place v kind reqSK)
      (bind rt typ depth n call w kind reqSK g)

theorem succeeds_value (htakes : g₀.Takes v kind) (hkind : kind ≠ .interface)
    (hplace : ¬(Replaced P place ∧ g₀.IsDict v)) :
    (Visit.value place v kind reqSK).Succeeds g₀ P := by
  refine ⟨⟨htakes, fun _ => hplace⟩, ?_⟩
  cases kind with
  | interface => exact absurd rfl hkind
  | _ => exact id

theorem next_of_ne (hkind : kind ≠ .interface) :
    (Visit.value place v kind reqSK).next g₀ P = P := by
  cases kind with
  | interface => exact absurd rfl hkind
  | _ => rfl

theorem replaced_some {p : Nat × Nat} : Replaced P (some p) ↔ p ∈ P := by
  constructor
  · rintro ⟨q, hq, heq⟩
    cases heq
    exact hq
  · exact fun hp => ⟨p, hp, rfl⟩

theorem not_replaced_none : ¬Replaced P none := by
  rintro ⟨p, -, hp⟩
  cases hp

/-- The value is bound and taken by the kind, or there is an error and it is not. -/
def Matches {α : Type} (g₀ : Graph) (v : Value) (kind : DestKind τ) (o : Except Stop α) : Prop :=
  (∃ a, o = .ok a ∧ g₀.Takes v kind) ∨ ∃ err, o = .error (.error err) ∧ ¬g₀.Takes v kind

theorem matches_int (g₀ g : Graph) (size : IntSize) (v : Value) :
    Matches g₀ v (.int size : DestKind τ) (bindInt g size v) := by
  cases v with
  | int i => exact .inl ⟨_, rfl, i, rfl⟩
  | _ => exact .inr ⟨_, rfl, fun ⟨i, hi⟩ => by cases hi⟩

theorem matches_string (g₀ g : Graph) (v : Value) :
    Matches g₀ v (.string : DestKind τ) (bindString g v) := by
  cases v with
  | string s => exact .inl ⟨_, rfl, s, rfl⟩
  | _ => exact .inr ⟨_, rfl, fun ⟨s, hs⟩ => by cases hs⟩

theorem matches_bool (g₀ g : Graph) (v : Value) :
    Matches g₀ v (.bool : DestKind τ) (bindBool g v) := by
  cases v with
  | bool b => exact .inl ⟨_, rfl, b, rfl⟩
  | _ => exact .inr ⟨_, rfl, fun ⟨b, hb⟩ => by cases hb⟩

/-- A kind without parts takes its value, or stops with an error. -/
theorem Matches.succeeds_or_stops {α : Type} {o : Except Stop α} (h : Matches g₀ v kind o)
    (hkind : kind ≠ .interface) :
    (∃ a, o = .ok a ∧ (Visit.value none v kind reqSK).Succeeds g₀ P) ∨
      ∃ err, o = .error (.error err) ∧ ¬(Visit.value none v kind reqSK).Fits g₀ P := by
  obtain ⟨a, ha, htakes⟩ | ⟨err, herr, htakes⟩ := h
  · exact .inl ⟨a, ha, succeeds_value htakes hkind fun h => not_replaced_none h.1⟩
  · exact .inr ⟨err, herr, fun h => htakes h.1⟩

/-- Binding a key follows its call. -/
theorem bindKey_visit (depth : Nat) (g₀ g : Graph) (P : Set (Nat × Nat)) (v : Value)
    (key : KeyKind) :
    (∃ k, bindKey g v key = .ok k ∧ (key.visit v : Visit τ).Succeeds g₀ P ∧
        (key.visit v : Visit τ).next g₀ P = P) ∨
      ∃ stop, bindKey g v key = .error stop ∧ (key.visit v : Visit τ).Stops g₀ P depth stop := by
  have hmatches : ∀ {α : Type} {o : Except Stop α} {f : α → Key} {kind : DestKind τ},
      Matches g₀ v kind o → kind ≠ .interface →
      (∃ k, o.map f = .ok k ∧ (Visit.value none v kind false).Succeeds g₀ P ∧
          (Visit.value none v kind false).next g₀ P = P) ∨
        ∃ stop, o.map f = .error stop ∧ (Visit.value none v kind false).Stops g₀ P depth stop := by
    intro α o f kind h hkind
    obtain ⟨a, rfl, hsucceeds⟩ | ⟨err, rfl, hfits⟩ :=
      @Matches.succeeds_or_stops _ g₀ P v kind false α o h hkind
    · exact .inl ⟨f a, rfl, hsucceeds, next_of_ne hkind⟩
    · exact .inr ⟨.error err, rfl, hfits⟩
  cases key with
  | int size => exact hmatches (matches_int g₀ g size v) (by simp)
  | string => exact hmatches (matches_string g₀ g v) (by simp)
  | bool => exact hmatches (matches_bool g₀ g v) (by simp)
  | struct => exact .inr ⟨_, rfl, id⟩
  | interface =>
    by_cases hv : v = .none
    · subst hv
      exact .inr ⟨.panic, rfl, rfl⟩
    · refine .inl ⟨.interface v, ?_, ⟨⟨trivial, fun h => absurd rfl h⟩, ?_⟩, rfl⟩
      · cases v with
        | none => exact absurd rfl hv
        | _ => rfl
      · rintro (h | ⟨h, -⟩)
        · exact hv h
        · cases h

/-- A value that was not read from a list is as it was. -/
theorem FollowsAll.none (h : FollowsAll rt typ g₀ depth n) (hg : Kept g₀ P g) :
    Follows g₀ depth P (visits rt typ g₀ n call none v kind reqSK)
      (bind rt typ depth n call v kind reqSK g) :=
  h hg ⟨fun hv => absurd hv.1 not_replaced_none, fun _ => rfl⟩
    fun hv => absurd hv not_replaced_none

theorem FollowsAll.some (h : FollowsAll rt typ g₀ depth n) (hg : Kept g₀ P g) {r i : Nat}
    {items : List Value} (hr : g₀[r]? = some (.cell (.list items))) :
    Follows g₀ depth P (visits rt typ g₀ n call (some (r, i)) (items.getD i .none) kind reqSK)
      (bind rt typ depth n call (g.item r i) kind reqSK g) :=
  h hg ((hg.item hr i).imp replaced_some fun _ hu => hu)
    fun hv => hg.gone (replaced_some.mp hv) hr

/-- An error is returned where the kind does not take the value. -/
theorem follows_refused {α : Type} {l : List (Visit τ)} {err : BindError}
    (htakes : ¬g₀.Takes v kind) :
    Follows (α := α) g₀ depth P (.value place v kind reqSK :: l) (.error (.error err)) :=
  follows_stop fun h => htakes h.1

variable (hg : Kept g₀ P g) (hplace : ¬(Replaced P place ∧ g₀.IsDict v))

include hg hplace

/-- A kind without parts follows its call. -/
theorem follows_scalar {α : Type} {o : Except Stop α} {f : α → Bound} (ho : Matches g₀ v kind o)
    (hkind : kind ≠ .interface) :
    Follows g₀ depth P [.value place v kind reqSK] (o.map fun a => (f a, g)) := by
  obtain ⟨a, rfl, htakes⟩ | ⟨err, rfl, htakes⟩ := ho
  · refine .cons (succeeds_value htakes hkind hplace) (follows_nil ?_)
    rwa [next_of_ne hkind]
  · exact follows_refused htakes

variable (ih : FollowsAll rt typ g₀ depth n)

include ih

theorem follows_slice {elem : τ} :
    Follows g₀ depth P (visits rt typ g₀ (n + 1) call place v (.slice elem) reqSK)
      (bind rt typ depth (n + 1) call v (.slice elem) reqSK g) := by
  cases hshape : g₀.shape v with
  | list r items =>
    obtain ⟨items', hshape', hlength⟩ := hg.shape_list hshape
    simp only [visits, bind, hshape, hshape', hlength]
    refine .cons (succeeds_value (.inl ⟨r, items, hshape⟩) (by simp) hplace) (.map ?_)
    refine follows_bindEach (fun i _ P g hg => .wrap ?_) hg
    exact ih.some hg (Graph.shape_eq_list.mp hshape).2
  | set items =>
    simp only [visits, bind, hshape, hg.shape_eq hshape (by simp)]
    refine .cons (succeeds_value (.inr (.inl ⟨items, hshape⟩)) (by simp) hplace) (.map ?_)
    exact follows_bindEach (fun p _ P g hg => .wrap (ih.none hg)) hg
  | tuple items =>
    simp only [visits, bind, hshape, hg.shape_eq hshape (by simp)]
    refine .cons (succeeds_value (.inr (.inr ⟨items, hshape⟩)) (by simp) hplace) (.map ?_)
    exact follows_bindEach (fun p _ P g hg => .wrap (ih.none hg)) hg
  | _ =>
    simp only [visits, bind, hshape, hg.shape_eq hshape (by simp)]
    exact follows_refused (by simp [Graph.Takes, hshape])

theorem follows_struct {fields : List (Field τ)} :
    Follows g₀ depth P (visits rt typ g₀ (n + 1) call place v (.struct fields) reqSK)
      (bind rt typ depth (n + 1) call v (.struct fields) reqSK g) := by
  cases hshape : g₀.shape v with
  | dict items =>
    simp only [visits, bind, hshape, hg.shape_eq hshape (by simp)]
    refine .cons (succeeds_value (.inl ⟨items, hshape⟩) (by simp) hplace) (.map ?_)
    refine follows_bindEach (fun p _ P g hg => ?_) hg
    by_cases hrem : p.1.isRemainder
    · simp only [hrem, if_true]
      exact ih.none hg
    · simp only [hrem, if_false, Bool.false_eq_true]
      cases hfind : p.1.find rt items with
      | none => exact follows_stop id
      | some w => exact (ih.none hg).wrap
  | object arguments =>
    simp only [visits, bind, hshape, hg.shape_eq hshape (by simp)]
    by_cases hlength : arguments.length = fields.length
    · simp only [hlength, ne_eq, not_true_eq_false, if_false]
      refine .cons (succeeds_value (.inr ⟨arguments, hshape, hlength⟩) (by simp) hplace) (.map ?_)
      exact follows_bindEach (fun p _ P g hg => .wrap (ih.none hg)) hg
    · simp only [ne_eq, hlength, not_false_eq_true, if_true]
      exact follows_refused (by simp [Graph.Takes, Graph.IsDict, hshape, hlength])
  | list r items =>
    obtain ⟨items', hshape', -⟩ := hg.shape_list hshape
    simp only [visits, bind, hshape, hshape']
    exact follows_refused (by simp [Graph.Takes, Graph.IsDict, hshape])
  | _ =>
    simp only [visits, bind, hshape, hg.shape_eq hshape (by simp)]
    exact follows_refused (by simp [Graph.Takes, Graph.IsDict, hshape])

theorem follows_map {key : KeyKind} {elem : τ} :
    Follows g₀ depth P (visits rt typ g₀ (n + 1) call place v (.map key elem) reqSK)
      (bind rt typ depth (n + 1) call v (.map key elem) reqSK g) := by
  cases hshape : g₀.shape v with
  | dict items =>
    simp only [visits, bind, hshape, hg.shape_eq hshape (by simp)]
    refine .cons (succeeds_value ⟨items, hshape⟩ (by simp) hplace)
      (.map (f := fun l : List (Key × Bound) =>
        Bound.map (l.foldl (fun m e => setMapIndex m e.1 e.2) [])) ?_)
    refine follows_bindEach (fun p _ P g hg => ?_) hg
    obtain ⟨k, hk, hsucceeds, hnext⟩ | ⟨stop, hstop, hx⟩ :=
      bindKey_visit (τ := τ) depth g₀ g P p.1.1 key
    · rw [hk]
      refine .cons hsucceeds ?_
      rw [hnext]
      exact (ih.none hg).map
    · rw [hstop]
      exact follows_stop hx
  | list r items =>
    obtain ⟨items', hshape', -⟩ := hg.shape_list hshape
    simp only [visits, bind, hshape, hshape']
    exact follows_refused (by simp [Graph.Takes, Graph.IsDict, hshape])
  | _ =>
    simp only [visits, bind, hshape, hg.shape_eq hshape (by simp)]
    exact follows_refused (by simp [Graph.Takes, Graph.IsDict, hshape])

end Kinds

section Interfaces

variable {rt : Runtime} {typ : τ → DestKind τ} {g₀ g : Graph} {depth n : Nat}
  {P : Set (Nat × Nat)} {call : List Nat} {place : Option (Nat × Nat)} {v w : Value} {reqSK : Bool}

theorem setInterface_ok (hw : w ≠ .none) : setInterface w g = .ok (.interface w, g) := by
  cases w with
  | none => exact absurd rfl hw
  | _ => rfl

/-- Setting the interface ends the call. -/
theorem follows_setInterface {x : Visit τ} (hx : x.Fits g₀ P) (hend : ¬x.Endless g₀)
    (hnil : x.StoresNil ↔ w = .none) (hg : Kept g₀ (x.next g₀ P) g) :
    Follows g₀ depth P [x] (setInterface w g) := by
  by_cases hw : w = .none
  · subst hw
    exact follows_stop (hnil.mpr rfl)
  · rw [setInterface_ok hw]
    refine .cons ⟨hx, fun h => ?_⟩ (follows_nil hg)
    exact (Visit.fails_iff.mp h).elim (fun h => hw (hnil.mp h)) hend

theorem follows_interface (hg : Kept g₀ P g) (hw : Stands g₀ g (Replaced P place) v w)
    (hv : Settled g₀ P (Replaced P place) v) :
    Follows g₀ depth P (visits rt typ g₀ (n + 1) call place v .interface reqSK)
      (bind rt typ depth (n + 1) call w .interface reqSK g) := by
  have hfits : (Visit.value place v (.interface : DestKind τ) reqSK).Fits g₀ P :=
    ⟨trivial, fun h => absurd rfl h⟩
  cases reqSK with
  | false =>
    refine follows_setInterface hfits (by simp [Visit.Endless]) ?_ hg
    rw [hw.eq_none_iff]
    rfl
  | true =>
    have hrestrict := restricts rt depth call hg hw hv
    simp only [bind, if_true]
    cases hres : restrictMapKeysToStrings rt depth call w g with
    | none =>
      rw [hres] at hrestrict
      exact follows_stop (.inr hrestrict)
    | some p =>
      obtain ⟨u, g₁⟩ := p
      rw [hres] at hrestrict
      obtain ⟨hgrounded, hu, hkept⟩ := hrestrict
      refine follows_setInterface hfits (by simp [Visit.Endless, hgrounded]) ?_ hkept
      rw [hu.eq_none_iff]
      rfl

end Interfaces

/-- Binding follows the calls. -/
theorem follows (rt : Runtime) (typ : τ → DestKind τ) (g₀ : Graph) (depth n : Nat) :
    FollowsAll rt typ g₀ depth n := by
  induction n with
  | zero =>
    intro call place v w kind reqSK P g _ _ _
    exact follows_stop (.inl trivial)
  | succ n ih =>
    intro call place v w kind reqSK P g hg hw hv
    by_cases hinterface : kind = .interface
    · subst hinterface
      exact follows_interface hg hw hv
    · by_cases hrepl : Replaced P place ∧ g₀.IsDict v
      · -- the dict is a map by now
        obtain ⟨err, herr⟩ := bind_stringMap (hw.1 hrepl) hinterface
        rw [herr]
        exact follows_stop fun h => h.2 hinterface hrepl
      · obtain rfl := hw.2 hrepl
        cases kind with
        | interface => exact absurd rfl hinterface
        | int size => exact follows_scalar hg hrepl (matches_int g₀ g size w) hinterface
        | string => exact follows_scalar hg hrepl (matches_string g₀ g w) hinterface
        | bool => exact follows_scalar hg hrepl (matches_bool g₀ g w) hinterface
        | slice elem => exact follows_slice hg hrepl ih
        | struct fields => exact follows_struct hg hrepl ih
        | map key elem => exact follows_map hg hrepl ih

/-! ## Where it returns -/

/-- `bind` returns nil or an error. -/
def Returned {α : Type} (o : Except Stop α) : Prop :=
  ∀ stop, o = .error stop → ∃ err, stop = .error err

variable {g : Graph}

theorem not_fails_of_not_fits {P : Set (Nat × Nat)} {x : Visit τ} (h : ¬x.Fits g P) :
    ¬x.Fails g := by
  rcases x with ⟨place, v, kind, reqSK⟩ | _ | _
  · cases kind with
    | interface => exact absurd ⟨trivial, fun hne => absurd rfl hne⟩ h
    | _ => exact id
  · exact id
  · exact absurd trivial h

/-- A call that has an end has a depth. -/
theorem exists_depth_visit {x : Visit τ} (hx : ¬x.Endless g) :
    ∃ n, ∀ depth, n ≤ depth → ¬x.Exceeds g depth := by
  rcases x with ⟨place, v, kind, reqSK⟩ | _ | _
  · cases kind with
    | interface =>
      cases reqSK with
      | false => exact ⟨0, fun _ _ => id⟩
      | true =>
        have hgrounded : Grounded g.children v := by
          by_contra hcycle
          exact hx ⟨rfl, hcycle⟩
        obtain ⟨n, hn⟩ := hgrounded.exists_within
        exact ⟨n, fun depth hle hexceeds => hexceeds (hn.mono hle)⟩
    | _ => exact ⟨0, fun _ _ => id⟩
  · exact ⟨0, fun _ _ => id⟩
  · exact absurd trivial hx

/-- One depth is enough for all calls that have an end. -/
theorem exists_depth (g : Graph) (l : List (Visit τ)) :
    ∃ depth, ∀ x ∈ l, ¬x.Endless g → ¬x.Exceeds g depth := by
  have hall : ∃ n, ∀ depth, n ≤ depth → ∀ x ∈ l, ¬x.Endless g → ¬x.Exceeds g depth := by
    induction l with
    | nil => exact ⟨0, fun _ _ x hx => absurd hx List.not_mem_nil⟩
    | cons x l ih =>
      obtain ⟨m, hm⟩ := ih
      by_cases hx : x.Endless g
      · exact ⟨m, fun depth hle => List.forall_mem_cons.mpr ⟨fun h => absurd hx h, hm depth hle⟩⟩
      · obtain ⟨n, hn⟩ := exists_depth_visit hx
        refine ⟨max m n, fun depth hle => List.forall_mem_cons.mpr ⟨fun _ => ?_, ?_⟩⟩
        · exact hn depth (Nat.le_trans (Nat.le_max_right m n) hle)
        · exact hm depth (Nat.le_trans (Nat.le_max_left m n) hle)
  obtain ⟨n, hn⟩ := hall
  exact ⟨n, hn n (Nat.le_refl n)⟩

/-- Binding a value of the machine follows its calls. -/
theorem follows_start (rt : Runtime) (typ : τ → DestKind τ) (depth n : Nat) (v : Value)
    (heap : Heap) (dest : τ) : Follows (.ofHeap heap) depth ∅
      (visits rt typ (.ofHeap heap) n [] none v (typ dest) false)
      (bind rt typ depth n [] v (typ dest) false (.ofHeap heap)) :=
  FollowsAll.none (follows rt typ (.ofHeap heap) depth n) kept_self

/-- Binding returns nil or an error where no call that it comes to stores nil in an
interface, or asks for string keys behind which there is a cycle, and only there. -/
theorem bind_returns_iff (rt : Runtime) (typ : τ → DestKind τ) (v : Value) (heap : Heap)
    (dest : τ) :
    (∃ depth n, Returned (bind rt typ depth n [] v (typ dest) false (.ofHeap heap))) ↔
      ∃ n, ∀ P x, Comes (Visit.Succeeds (.ofHeap heap)) (Visit.next (.ofHeap heap)) ∅
        (visits rt typ (.ofHeap heap) n [] none v (typ dest) false) P x →
          ¬x.Fails (.ofHeap heap) := by
  constructor
  · rintro ⟨depth, n, hreturned⟩
    refine ⟨n, fun P x hcomes hfails => ?_⟩
    have hrun := follows_start rt typ depth n v heap dest
    cases hres : bind rt typ depth n [] v (typ dest) false (.ofHeap heap) with
    | ok p =>
      rw [hres] at hrun
      exact (hcomes.pass_of_passes hrun.1).2 hfails
    | error stop =>
      obtain ⟨err, rfl⟩ := hreturned stop hres
      rw [hres] at hrun
      obtain ⟨P', y, hcomes', hy⟩ := hrun
      -- both are the call that does not succeed
      obtain ⟨rfl, rfl⟩ := hcomes.unique (fun h => h.2 hfails) hcomes' fun h => hy h.1
      exact not_fails_of_not_fits hy hfails
  · rintro ⟨n, h⟩
    obtain ⟨depth, hdepth⟩ :=
      exists_depth (.ofHeap heap) (visits rt typ (.ofHeap heap) n [] none v (typ dest) false)
    refine ⟨depth, n, fun stop hres => ?_⟩
    have hrun := follows_start rt typ depth n v heap dest
    rw [hres] at hrun
    obtain ⟨P, x, hcomes, hx⟩ := hrun
    obtain ⟨hnil, hend⟩ := not_or.mp (Visit.fails_iff.not.mp (h P x hcomes))
    cases stop with
    | error err => exact ⟨err, rfl⟩
    | panic => exact absurd hx hnil
    | overflow =>
      obtain hx | hx := hx
      · exact absurd hx hend
      · exact absurd hx (hdepth x hcomes.mem hend)

/-- What panics does not return under other bounds. -/
theorem not_returned_of_panic {rt : Runtime} {typ : τ → DestKind τ} {depth n : Nat}
    {call : List Nat} {v : Value} {kind : DestKind τ} {reqSK : Bool}
    (h : bind rt typ depth n call v kind reqSK g = .error .panic) :
    ¬∃ depth n, Returned (bind rt typ depth n call v kind reqSK g) := by
  rintro ⟨depth', n', hreturned⟩
  have hpanic := settles_of_le rt typ (Nat.le_max_left depth depth') (Nat.le_max_left n n')
    call v kind reqSK g
  have hsame := settles_of_le rt typ (Nat.le_max_right depth depth') (Nat.le_max_right n n')
    call v kind reqSK g
  obtain hpanic | hpanic := hpanic
  · cases h.symm.trans hpanic
  · obtain hover | hsame := hsame
    · obtain ⟨err, herr⟩ := hreturned _ hover
      cases herr
    · obtain ⟨err, herr⟩ := hreturned .panic (hsame.symm.trans (hpanic.trans h))
      cases herr

/-- A struct with the field `SlotData` of `apdata`. -/
def slotDataKind : Nat → DestKind Nat
  | 0 => .struct [⟨"SlotData".toList, requireStringKeysTag, 1⟩]
  | 1 => .map (.int .int) 2
  | 2 => .map .string 3
  | _ => .interface

/-- The slot data of one slot, in which `goal` is None. -/
def slotData : List UInt8 :=
  [opcodeEMPTY_DICT, opcodeSHORT_BINUNICODE, 9] ++ lit "slot_data" ++
    [opcodeEMPTY_DICT, opcodeBININT1, 1, opcodeEMPTY_DICT, opcodeSHORT_BINUNICODE, 4] ++
    lit "goal" ++ [opcodeNONE, opcodeSETITEM, opcodeSETITEM, opcodeSETITEM, opcodeSTOP]

/-- The runtime of a run over ASCII names and maps of one entry. -/
def asciiRuntime : Runtime := ⟨Char.isUpper, Char.toLower, fun _ _ => Equiv.refl _⟩

/-- None in the slot data panics. -/
theorem slotData_panics :
    decode asciiRuntime slotDataKind 1 4 0 (opcodePROTO :: 4 :: slotData) = .error (.bind .panic) ∧
      ∃ v heap, exec (Machine.start slotData) = .ok (v, heap) ∧
        ¬∃ depth n, Returned
          (bind asciiRuntime slotDataKind depth n [] v (slotDataKind 0) false (.ofHeap heap)) := by
  have hexec : exec (Machine.start slotData) = .ok (.ref 0,
      [.dict [(.string (lit "slot_data"), .ref 1)], .dict [(.int 1, .ref 2)],
        .dict [(.string (lit "goal"), .none)]]) := rfl
  have hpanic : bind asciiRuntime slotDataKind 1 4 [] (.ref 0) (slotDataKind 0) false
      (.ofHeap [.dict [(.string (lit "slot_data"), .ref 1)], .dict [(.int 1, .ref 2)],
        .dict [(.string (lit "goal"), .none)]]) = .error .panic := rfl
  refine ⟨?_, _, _, hexec, not_returned_of_panic hpanic⟩
  simp only [decode, hexec, hpanic]
  rfl

end Isthmus.Pickle
