import Mathlib.Data.List.Nodup

/-!
# Tables with a primary key

A table is a list of rows whose keys are pairwise distinct, the distinctness
being part of the value. An insertion that would break it is refused; a batch
of insertions is taken as a whole or refused as a whole.
-/

/-- The rows of a table, in insertion order, with pairwise distinct keys. -/
@[ext]
structure Table (ρ : Type) {κ : Type} (key : ρ → κ) where
  rows : List ρ
  nodup : (rows.map key).Nodup

namespace Table

variable {ρ κ β ε : Type} {key : ρ → κ}

/-- The table without rows. -/
def empty (key : ρ → κ) : Table ρ key := ⟨[], List.nodup_nil⟩

@[simp] theorem empty_rows : (empty key).rows = [] := rfl

/-- Rows of a table with one key are one row. -/
theorem eq_of_key_eq {t : Table ρ key} {r r' : ρ} (hr : r ∈ t.rows) (hr' : r' ∈ t.rows)
    (h : key r = key r') : r = r' :=
  List.inj_on_of_nodup_map t.nodup hr hr' h

/-- Drop the rows that satisfy `p`. -/
def delete (t : Table ρ key) (p : ρ → Bool) : Table ρ key :=
  ⟨t.rows.filter fun r => !p r, t.nodup.sublist (List.filter_sublist.map key)⟩

theorem mem_delete {t : Table ρ key} {p : ρ → Bool} {r : ρ} :
    r ∈ (t.delete p).rows ↔ r ∈ t.rows ∧ p r = false := by
  simp [delete, List.mem_filter]

variable [DecidableEq κ]

/-- The row with the given key. -/
def find (t : Table ρ key) (k : κ) : Option ρ := t.rows.find? fun r => key r = k

theorem find_eq_some {t : Table ρ key} {k : κ} {r : ρ} :
    t.find k = some r ↔ r ∈ t.rows ∧ key r = k := by
  constructor
  · intro h
    exact ⟨List.mem_of_find?_eq_some h, by simpa using List.find?_some h⟩
  · rintro ⟨hr, rfl⟩
    cases hf : t.find (key r) with
    | none => simpa using List.find?_eq_none.mp hf r hr
    | some r' =>
      have hk : key r' = key r := by simpa using List.find?_some hf
      rw [eq_of_key_eq (List.mem_of_find?_eq_some hf) hr hk]

theorem find_eq_none {t : Table ρ key} {k : κ} :
    t.find k = none ↔ ∀ r ∈ t.rows, key r ≠ k := by
  simp [find, List.find?_eq_none]

/-- Add a row at the end, unless its key is taken. -/
def insert (t : Table ρ key) (r : ρ) : Option (Table ρ key) :=
  if h : key r ∈ t.rows.map key then none
  else some ⟨t.rows ++ [r], by
    rw [List.map_append, List.map_singleton, ← List.concat_eq_append]
    exact List.Nodup.concat h t.nodup⟩

theorem insert_eq_some {t t' : Table ρ key} {r : ρ} :
    t.insert r = some t' ↔ (∀ r' ∈ t.rows, key r' ≠ key r) ∧ t'.rows = t.rows ++ [r] := by
  unfold insert
  split
  · next h =>
    obtain ⟨r', hr', hk⟩ := List.mem_map.mp h
    simp only [reduceCtorEq, false_iff, not_and]
    intro hall
    exact absurd hk (hall r' hr')
  · next h =>
    rw [Option.some.injEq, Table.ext_iff]
    constructor
    · intro h'
      exact ⟨fun r' hr' hk => h (List.mem_map.mpr ⟨r', hr', hk⟩), h'.symm⟩
    · rintro ⟨-, h'⟩
      exact h'.symm

theorem insert_eq_none {t : Table ρ key} {r : ρ} :
    t.insert r = none ↔ ∃ r' ∈ t.rows, key r' = key r := by
  unfold insert
  split
  · next h => simpa [List.mem_map] using h
  · next h => simpa [List.mem_map] using h

/-- Replace the row that has the key of `r`, or add `r` at the end. -/
def upsert (t : Table ρ key) (r : ρ) : Table ρ key :=
  match t.insert r with
  | some t' => t'
  | none => ⟨t.rows.map fun r' => if key r' = key r then r else r', by
      have : (t.rows.map fun r' => if key r' = key r then r else r').map key = t.rows.map key := by
        rw [List.map_map]
        refine List.map_congr_left fun r' _ => ?_
        by_cases h : key r' = key r <;> simp [h]
      rw [this]
      exact t.nodup⟩

/-- A row is found after it was put in. -/
theorem find_upsert (t : Table ρ key) (r : ρ) : (t.upsert r).find (key r) = some r := by
  refine find_eq_some.mpr ⟨?_, rfl⟩
  unfold upsert
  split
  · next t' ht' => simp [(insert_eq_some.mp ht').2]
  · next hnone =>
    obtain ⟨r', hr', hk⟩ := insert_eq_none.mp hnone
    exact List.mem_map.mpr ⟨r', hr', if_pos hk⟩

/-- The rows of other keys stay as they are. -/
theorem find_upsert_of_ne {t : Table ρ key} {r : ρ} {k : κ} (h : key r ≠ k) :
    (t.upsert r).find k = t.find k := by
  unfold upsert find
  split
  · next t' ht' => simp [(insert_eq_some.mp ht').2, List.find?_append, h]
  · have hkeys : ((fun r' => decide (key r' = k)) ∘ fun r' => if key r' = key r then r else r') =
        fun r' => decide (key r' = k) := by
      funext r'
      by_cases hr' : key r' = key r <;> simp [hr']
    show (t.rows.map _).find? _ = _
    rw [List.find?_map, hkeys]
    cases hfind : t.rows.find? fun r' => key r' = k with
    | none => rfl
    | some r' =>
      have hk : key r' = k := by simpa using List.find?_some hfind
      rw [Option.map_some, if_neg (hk ▸ Ne.symm h)]

/-- Check and insert a batch row by row. The first row that fails its check or
whose key is taken refuses the whole batch. -/
def insertEach (check : β → Except ε ρ) (dup : ε) : Table ρ key → List β →
    Except ε (Table ρ key)
  | t, [] => .ok t
  | t, b :: bs =>
    match check b with
    | .error e => .error e
    | .ok r =>
      match t.insert r with
      | none => .error dup
      | some t' => insertEach check dup t' bs

variable {check : β → Except ε ρ} {dup : ε}

/-- An accepted batch is at the end of the table, row by row. -/
theorem insertEach_ok {t t' : Table ρ key} {bs : List β}
    (h : insertEach check dup t bs = .ok t') :
    ∃ rs, List.Forall₂ (fun b r => check b = .ok r) bs rs ∧ t'.rows = t.rows ++ rs := by
  induction bs generalizing t with
  | nil =>
    cases h
    exact ⟨[], .nil, by simp⟩
  | cons b bs ih =>
    unfold insertEach at h
    split at h
    · cases h
    · next r hr =>
      split at h
      · cases h
      · next t₁ ht₁ =>
        obtain ⟨rs, hrs, hrows⟩ := ih h
        refine ⟨r :: rs, .cons hr hrs, ?_⟩
        rw [hrows, (insert_eq_some.mp ht₁).2, List.append_assoc, List.singleton_append]

/-- The rows after an accepted batch: those before, and those of the batch. -/
theorem mem_of_insertEach_ok {t t' : Table ρ key} {bs : List β}
    (h : insertEach check dup t bs = .ok t') {r : ρ} :
    r ∈ t'.rows ↔ r ∈ t.rows ∨ ∃ b ∈ bs, check b = .ok r := by
  obtain ⟨rs, hrs, hrows⟩ := insertEach_ok h
  have hmem : r ∈ rs ↔ ∃ b ∈ bs, check b = .ok r := by
    clear hrows h
    induction hrs with
    | nil => simp
    | cons hb _ ih => simp [ih, hb, eq_comm]
  rw [hrows, List.mem_append, hmem]

/-- Every entry of an accepted batch passed its check. -/
theorem check_of_insertEach_ok {t t' : Table ρ key} {bs : List β}
    (h : insertEach check dup t bs = .ok t') : ∀ b ∈ bs, ∃ r, check b = .ok r := by
  obtain ⟨rs, hrs, -⟩ := insertEach_ok h
  clear h
  induction hrs with
  | nil => simp
  | cons hb _ ih =>
    intro b' hb'
    rcases List.mem_cons.mp hb' with rfl | hb'
    · exact ⟨_, hb⟩
    · exact ih b' hb'

/-- A batch is refused for a key that is taken, or with the error of a check. -/
theorem insertEach_error {t : Table ρ key} {bs : List β} {e : ε}
    (h : insertEach check dup t bs = .error e) : e = dup ∨ ∃ b ∈ bs, check b = .error e := by
  induction bs generalizing t with
  | nil => cases h
  | cons b bs ih =>
    unfold insertEach at h
    split at h
    · next e' he' =>
      cases h
      exact .inr ⟨b, List.mem_cons_self, he'⟩
    · split at h
      · cases h
        exact .inl rfl
      · refine (ih h).imp_right ?_
        rintro ⟨b', hb', he⟩
        exact ⟨b', List.mem_cons_of_mem _ hb', he⟩

/-- A batch whose rows pass the check and have new, distinct keys is accepted. -/
theorem insertEach_of_nodup {t : Table ρ key} {bs : List β} {rs : List ρ}
    (hrs : List.Forall₂ (fun b r => check b = .ok r) bs rs)
    (hnd : ((t.rows ++ rs).map key).Nodup) :
    insertEach check dup t bs = .ok ⟨t.rows ++ rs, hnd⟩ := by
  induction hrs generalizing t with
  | nil => simp [insertEach]
  | @cons b r bs rs hb _ ih =>
    have hnew : ∀ r' ∈ t.rows, key r' ≠ key r := by
      intro r' hr' hk
      rw [List.map_append, List.map_cons] at hnd
      exact (List.nodup_append.mp hnd).2.2 _ (List.mem_map_of_mem hr') _
        List.mem_cons_self hk
    have ht₁ : ((t.rows ++ [r]).map key).Nodup := by
      refine hnd.sublist (List.Sublist.map key ?_)
      rw [List.append_cons t.rows r rs]
      exact List.sublist_append_left _ _
    have hins : t.insert r = some ⟨t.rows ++ [r], ht₁⟩ := insert_eq_some.mpr ⟨hnew, rfl⟩
    unfold insertEach
    simp only [hb, hins]
    rw [ih (by simpa using hnd)]
    simp

/-- A batch into the empty table is accepted when every row passes its check and
the keys, here as they are read off the entries, are distinct. -/
theorem insertEach_empty_ok_iff {κ' : Type} (keyOf : β → κ') {f : κ → κ'}
    (hf : f.Injective) {bs : List β} (hkey : ∀ b r, check b = .ok r → keyOf b = f (key r)) :
    (∃ t, insertEach check dup (empty key) bs = .ok t) ↔
      (∀ b ∈ bs, ∃ r, check b = .ok r) ∧ (bs.map keyOf).Nodup := by
  have hkeys : ∀ {bs rs}, List.Forall₂ (fun b r => check b = .ok r) bs rs →
      bs.map keyOf = (rs.map key).map f := by
    intro bs rs hrs
    induction hrs with
    | nil => rfl
    | cons hb _ ih => rw [List.map_cons, List.map_cons, List.map_cons, hkey _ _ hb, ih]
  constructor
  · rintro ⟨t, ht⟩
    obtain ⟨rs, hrs, hrows⟩ := insertEach_ok ht
    rw [empty_rows, List.nil_append] at hrows
    refine ⟨check_of_insertEach_ok ht, ?_⟩
    rw [hkeys hrs]
    exact (hrows ▸ t.nodup).map hf
  · rintro ⟨hbs, hnd⟩
    obtain ⟨rs, hrs⟩ : ∃ rs, List.Forall₂ (fun b r => check b = .ok r) bs rs := by
      clear hnd
      induction bs with
      | nil => exact ⟨[], .nil⟩
      | cons b bs ih =>
        obtain ⟨r, hr⟩ := hbs b List.mem_cons_self
        obtain ⟨rs, hrs⟩ := ih fun b hb => hbs b (List.mem_cons_of_mem _ hb)
        exact ⟨r :: rs, .cons hr hrs⟩
    rw [hkeys hrs] at hnd
    exact ⟨_, insertEach_of_nodup hrs (by simpa using List.Nodup.of_map f hnd)⟩

/-- Add a row, if it passed its check, to the table in a state. -/
def insertInto {σ : Type} (dup : ε) (put : Table ρ key → σ) (t : Table ρ key) :
    Except ε ρ → Except ε σ
  | .error e => .error e
  | .ok r =>
    match t.insert r with
    | none => .error dup
    | some t' => .ok (put t')

/-- Row by row, in a state that contains the table, a batch does what it does to
the table. -/
theorem foldlM_insertInto {σ : Type} (put : Table ρ key → σ) {write : σ → β → Except ε σ}
    (hwrite : ∀ t b, write (put t) b = insertInto dup put t (check b)) (t : Table ρ key)
    (bs : List β) : bs.foldlM write (put t) = (insertEach check dup t bs).map put := by
  induction bs generalizing t with
  | nil => rfl
  | cons b bs ih =>
    rw [List.foldlM_cons, hwrite, insertEach, insertInto.eq_def]
    cases check b with
    | error e => rfl
    | ok r =>
      dsimp only
      cases t.insert r with
      | none => rfl
      | some t' => exact ih t'

/-- With free and distinct keys only a check can refuse the batch. -/
theorem insertEach_ne_dup {t : Table ρ key} {bs : List β} {rs : List ρ}
    (hcheck : ∀ b ∈ bs, check b ≠ .error dup)
    (hrs : List.Forall₂ (fun b r => ∀ r', check b = .ok r' → r' = r) bs rs)
    (hnd : ((t.rows ++ rs).map key).Nodup) :
    insertEach check dup t bs ≠ .error dup := by
  induction hrs generalizing t with
  | nil => simp [insertEach]
  | @cons b r bs rs hb _ ih =>
    unfold insertEach
    have hb' := hcheck b List.mem_cons_self
    split
    · next e he =>
      rintro ⟨⟩
      exact hb' he
    · next r' hr' =>
      obtain rfl := hb r' hr'
      have hnew : ∀ r₀ ∈ t.rows, key r₀ ≠ key r' := by
        intro r₀ hr₀ hk
        rw [List.map_append, List.map_cons] at hnd
        exact (List.nodup_append.mp hnd).2.2 _ (List.mem_map_of_mem hr₀) _
          List.mem_cons_self hk
      split
      · next hnone =>
        obtain ⟨r₀, hr₀, hk⟩ := insert_eq_none.mp hnone
        exact absurd hk (hnew r₀ hr₀)
      · next t₁ ht₁ =>
        refine ih (fun b hb => hcheck b (List.mem_cons_of_mem _ hb)) ?_
        rw [(insert_eq_some.mp ht₁).2]
        simpa using hnd

end Table
