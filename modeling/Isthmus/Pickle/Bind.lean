import Isthmus.Go.Strings
import Isthmus.Pickle.Machine
import Mathlib.Logic.Equiv.Defs

/-!
# Binding

`bind` stores a value of the machine in a destination, by the kind of the
destination. Where a field asks for string keys, the dicts behind it are replaced,
and the lists that hold them are changed in place.

## Main definitions

- `Graph`: the lists, dicts and sets of the machine, and the maps made of them
- `DestKind`: the kinds of destinations
- `restrictMapKeysToStrings`, `bind`, `decode`: the functions, as the source has them
-/

namespace Isthmus.Pickle

/-! ## The graph -/

/-- What a reference points to: what the machine made, or a map that was made of a dict. -/
inductive Node where
  | cell (c : Cell)
  | stringMap (m : GoMap GoString Value)

abbrev Graph := List Node

/-- The values that a type switch goes on with. -/
inductive Shape where
  | list (r : Nat) (items : List Value)
  | dict (items : List (Value × Value))
  | set (items : List Value)
  | tuple (items : List Value)
  | object (arguments : List Value)
  | other

namespace Graph

def ofHeap (heap : Heap) : Graph := heap.map .cell

variable (g : Graph)

def shape : Value → Shape
  | .tuple items => .tuple items
  | .object _ arguments => .object arguments
  | .ref r =>
    match g[r]? with
    | some (.cell (.list items)) => .list r items
    | some (.cell (.dict items)) => .dict items
    | some (.cell (.set items)) => .set items
    | _ => .other
  | _ => .other

/-- What `%T` prints. -/
def typeName : Value → String
  | .none => "<nil>"
  | .bool _ => "bool"
  | .int _ => "int64"
  | .string _ => "string"
  | .mark => "pickle.mark"
  | .symbol _ _ => "pickle.Symbol"
  | .tuple _ => "pickle.Tuple"
  | .object _ _ => "pickle.Object"
  | .ref r =>
    match g[r]? with
    | some (.cell (.list _)) => "*[]interface {}"
    | some (.cell (.dict _)) => "map[interface {}]interface {}"
    | some (.cell (.set _)) => "map[interface {}]struct {}"
    | some (.stringMap _) => "map[string]interface {}"
    | none => "<nil>"

/-- The element of a list, as it is now. -/
def item (r i : Nat) : Value :=
  match g[r]? with
  | some (.cell (.list items)) => items.getD i .none
  | _ => .none

/-- The element of a list is replaced. -/
def setItem (r i : Nat) (v : Value) : Graph :=
  match g[r]? with
  | some (.cell (.list items)) => g.set r (.cell (.list (items.set i v)))
  | _ => g

end Graph

/-! ## Destinations -/

/-- The sizes of the signed integers. -/
inductive IntSize where
  | int
  | int16
  | int32
  | int64

/-- `SetInt` keeps the low bits. -/
def IntSize.wrap : IntSize → Int → Int
  | .int16, n => n.bmod 0x10000
  | .int32, n => toInt32 n
  | _, n => n.bmod 0x10000000000000000

/-- The kinds of the keys of a map. -/
inductive KeyKind where
  | int (size : IntSize)
  | string
  | bool
  | struct
  | interface

/-- An exported field of a struct. Its name is a Go identifier. -/
structure Field (τ : Type) where
  name : List Char
  tag : GoString
  type : τ

/-- The kinds of destinations, over the types that their parts have. -/
inductive DestKind (τ : Type) where
  | int (size : IntSize)
  | string
  | bool
  | slice (elem : τ)
  | struct (fields : List (Field τ))
  | map (key : KeyKind) (elem : τ)
  | interface

inductive Key where
  | int (n : Int)
  | string (s : GoString)
  | bool (b : Bool)
  | interface (v : Value)
  deriving DecidableEq

/-- What a destination holds. -/
inductive Bound where
  | int (n : Int)
  | string (s : GoString)
  | bool (b : Bool)
  | slice (items : List Bound)
  | struct (fields : List Bound)
  | map (items : List (Key × Bound))
  | interface (v : Value)

/-- `SetMapIndex`. -/
def setMapIndex (m : List (Key × Bound)) (key : Key) (value : Bound) : List (Key × Bound) :=
  if m.any fun e => e.1 = key then m.map fun e => if e.1 = key then (key, value) else e
  else m ++ [(key, value)]

/-- What the runtime decides: the Unicode tables, and in which order each call goes
over the map it is given. A call is told by the indices on the way to it, the last first. -/
structure Runtime where
  isUpper : Char → Bool
  toLower : Char → Char
  order : List Nat → (n : Nat) → Equiv.Perm (Fin n)

/-- The elements of a map, in the order of its `range`. -/
def Runtime.entries {α : Type} (rt : Runtime) (call : List Nat) (l : List α) : List α :=
  List.ofFn fun i => l.get (rt.order call l.length i)

/-! ## Errors -/

/-- A `pathError`, or with an empty path another error. -/
structure BindError where
  path : List GoString
  text : GoString

def wrapError (err : BindError) (key : GoString) : BindError := ⟨key :: err.path, err.text⟩

/-- Why there is no value: an error that is returned, a panic of the reflection,
or a recursion that goes deeper than it may. -/
inductive Stop where
  | error (err : BindError)
  | panic
  | overflow

/-- Errors are wrapped. -/
def Stop.wrap (key : GoString) : Stop → Stop
  | .error err => .error (wrapError err key)
  | stop => stop

/-- The error for a value of another type. -/
def Graph.expected (g : Graph) (what : String) (v : Value) : Stop :=
  .error ⟨[], lit "expected " ++ lit what ++ lit ", got " ++ lit (g.typeName v)⟩

/-! ## String keys -/

section Restrict

variable (rt : Runtime)

/-- The loop over a dict. -/
def restrictEntries (restrict : List Nat → Value → Graph → Option (Value × Graph))
    (call : List Nat) : List ((Value × Value) × Nat) → GoMap GoString Value → Graph →
    Option (GoMap GoString Value × Graph)
  | [], m, g => some (m, g)
  | ((.string s, v), i) :: l, m, g => do
    let (v, g) ← restrict (i :: call) v g
    restrictEntries restrict call l (m.insert s v) g
  | _ :: l, m, g => restrictEntries restrict call l m g

/-- The loop over the indices of a list. -/
def restrictItems (restrict : List Nat → Value → Graph → Option (Value × Graph))
    (call : List Nat) (r : Nat) : List Nat → Graph → Option Graph
  | [], g => some g
  | i :: l, g => do
    let (v, g) ← restrict (i :: call) (g.item r i) g
    restrictItems restrict call r l (g.setItem r i v)

/-- `restrictMapKeysToStrings`, with a bound on its depth. -/
def restrictMapKeysToStrings : Nat → List Nat → Value → Graph → Option (Value × Graph)
  | 0, _, _, _ => none
  | n + 1, call, v, g =>
    match g.shape v with
    | .dict items => do
      let (m, g) ←
        restrictEntries (restrictMapKeysToStrings n) call (rt.entries call items).zipIdx ∅ g
      some (.ref g.length, g ++ [.stringMap m])
    | .list r items => do
      let g ← restrictItems (restrictMapKeysToStrings n) call r (List.range items.length) g
      some (v, g)
    | _ => some (v, g)

end Restrict

/-! ## The recursion -/

section Bind

variable (rt : Runtime)

/-- `ReplaceAllStringFunc`: a run of upper case letters gets an underscore. -/
def underscore (inRun : Bool) : List Char → List Char
  | [] => []
  | c :: s =>
    if rt.isUpper c then
      if inRun then rt.toLower c :: underscore true s
      else '_' :: rt.toLower c :: underscore true s
    else c :: underscore false s

def snakeCase (name : List Char) : List Char :=
  match underscore rt false name with
  | '_' :: s => s
  | s => s

def utf8 (s : List Char) : GoString := s.flatMap String.utf8EncodeChar

def requireStringKeysTag : GoString := lit "require_string_keys"

def remainderTag : GoString := lit "remainder"

namespace Field

variable {τ : Type} (f : Field τ)

def tags : List GoString := f.tag.splitOn 44

def reqSK : Bool := f.tags.contains requireStringKeysTag

def isRemainder : Bool := f.tags.contains remainderTag

/-- The value for the field: under its name, or under the name in snake case. -/
def find (items : List (Value × Value)) : Option Value :=
  let get (name : List Char) := (items.find? fun e => e.1.equals (.string (utf8 name))).map (·.2)
  (get f.name).or (get (snakeCase rt f.name))

end Field

def bindInt (g : Graph) (size : IntSize) : Value → Except Stop Int
  | .int n => .ok (size.wrap n)
  | v => .error (g.expected "int" v)

def bindString (g : Graph) : Value → Except Stop GoString
  | .string s => .ok s
  | v => .error (g.expected "string" v)

def bindBool (g : Graph) : Value → Except Stop Bool
  | .bool b => .ok b
  | v => .error (g.expected "bool" v)

/-- `Set` on an interface that is a key. It does not take the zero `Value`. -/
def setKey : Value → Except Stop Key
  | .none => .error .panic
  | v => .ok (.interface v)

/-- The keys of a dict are integers, strings, booleans and tuples: none of them is a
dict or an object, which a struct would take, or has parts that could be restricted. -/
def bindKey (g : Graph) (v : Value) : KeyKind → Except Stop Key
  | .int size => (bindInt g size v).map .int
  | .string => (bindString g v).map .string
  | .bool => (bindBool g v).map .bool
  | .struct => .error (g.expected "object or dict" v)
  | .interface => setKey v

/-- A loop that binds, and stops at the first error. -/
def bindEach {α β : Type} (f : α → Graph → Except Stop (β × Graph)) :
    List α → Graph → Except Stop (List β × Graph)
  | [], g => .ok ([], g)
  | a :: l, g => do
    let (b, g) ← f a g
    let (bs, g) ← bindEach f l g
    .ok (b :: bs, g)

/-- `Set` on an interface. It does not take the zero `Value`, which `ValueOf(nil)` is. -/
def setInterface : Value → Graph → Except Stop (Bound × Graph)
  | .none, _ => .error .panic
  | v, g => .ok (.interface v, g)

variable {τ : Type} (typ : τ → DestKind τ) (depth : Nat)

/-- `bind`, with bounds on its depth and on that of `restrictMapKeysToStrings`. -/
def bind : Nat → List Nat → Value → DestKind τ → Bool → Graph → Except Stop (Bound × Graph)
  | 0, _, _, _, _, _ => .error .overflow
  | n + 1, call, v, kind, reqSK, g =>
    match kind with
    | .int size => (bindInt g size v).map fun i => (.int i, g)
    | .string => (bindString g v).map fun s => (.string s, g)
    | .bool => (bindBool g v).map fun b => (.bool b, g)
    | .slice elem =>
      let bindAt (i : Nat) (v : Value) (g : Graph) :=
        (bind n (i :: call) v (typ elem) reqSK g).mapError (.wrap (Strings.formatNat i))
      let bound : Except Stop (List Bound × Graph) :=
        match g.shape v with
        | .list r items =>
          bindEach (fun i g => bindAt i (g.item r i) g) (List.range items.length) g
        | .set items => bindEach (fun p => bindAt p.2 p.1) (rt.entries call items).zipIdx g
        | .tuple items => bindEach (fun p => bindAt p.2 p.1) items.zipIdx g
        | _ => .error (g.expected "list, set or tuple" v)
      bound.map fun p => (.slice p.1, p.2)
    | .struct fields =>
      let bound : Except Stop (List Bound × Graph) :=
        match g.shape v with
        | .dict items =>
          bindEach (fun p g =>
            -- the field is given the dict itself, and its error is not wrapped
            if p.1.isRemainder then bind n (p.2 :: call) v (typ p.1.type) p.1.reqSK g
            else
              match p.1.find rt items with
              | none => .error (.error ⟨[], lit "key " ++ utf8 p.1.name ++ lit " not found"⟩)
              | some w =>
                (bind n (p.2 :: call) w (typ p.1.type) p.1.reqSK g).mapError
                  (.wrap (utf8 p.1.name))) fields.zipIdx g
        | .object arguments =>
          if arguments.length ≠ fields.length then
            .error (.error ⟨[], lit "expected " ++ Strings.formatNat fields.length ++
              lit " arguments, got " ++ Strings.formatNat arguments.length⟩)
          else
            -- the tag is not split here
            bindEach (fun p g =>
              (bind n (p.2 :: call) p.1.2 (typ p.1.1.type)
                (p.1.1.tag == requireStringKeysTag) g).mapError (.wrap (utf8 p.1.1.name)))
              (fields.zip arguments).zipIdx g
        | _ => .error (g.expected "object or dict" v)
      bound.map fun p => (.struct p.1, p.2)
    | .map key elem =>
      match g.shape v with
      | .dict items =>
        let bound := bindEach (fun p g => do
          let k ← bindKey g p.1.1 key
          (bind n (p.2 :: call) p.1.2 (typ elem) reqSK g).map fun q => ((k, q.1), q.2))
          (rt.entries call items).zipIdx g
        bound.map fun p => (.map (p.1.foldl (fun m e => setMapIndex m e.1 e.2) []), p.2)
      | _ => .error (g.expected "dict" v)
    | .interface =>
      if reqSK then
        match restrictMapKeysToStrings rt depth call v g with
        | none => .error .overflow
        | some (v, g) => setInterface v g
      else setInterface v g

end Bind

/-! ## Decode -/

def opcodePROTO : UInt8 := 0x80

/-- Why `Decode` does not return nil. -/
inductive DecodeFault where
  | eof
  | unexpectedOpcode (opcode : UInt8)
  | invalidVersion (version : UInt8)
  | machine (e : Fault)
  | bind (stop : Stop)

/-- `Decode`, with the bounds of `bind`. -/
def decode {τ : Type} (rt : Runtime) (typ : τ → DestKind τ) (depth n : Nat) (dest : τ) :
    List UInt8 → Except DecodeFault (Bound × Graph)
  | opcode :: version :: src =>
    if opcode ≠ opcodePROTO then .error (.unexpectedOpcode opcode)
    else if version < 4 then .error (.invalidVersion version)
    else
      match exec (Machine.start src) with
      | .error e => .error (.machine e)
      | .ok (v, heap) =>
        (bind rt typ depth n [] v (typ dest) false (.ofHeap heap)).mapError .bind
  | _ => .error .eof

/-! ## The bounds

A result that is not an overflow is the same for all larger bounds. -/

section Bounds

/-- Each answer of the one is an answer of the other. -/
def AnswersAs (restrict restrict' : List Nat → Value → Graph → Option (Value × Graph)) : Prop :=
  ∀ call v g p, restrict call v g = some p → restrict' call v g = some p

section Loops

variable {restrict restrict' : List Nat → Value → Graph → Option (Value × Graph)}
  (h : AnswersAs restrict restrict')

include h

theorem restrictEntries_mono {call : List Nat} {l : List ((Value × Value) × Nat)}
    {m : GoMap GoString Value} {g : Graph} {p : GoMap GoString Value × Graph}
    (hp : restrictEntries restrict call l m g = some p) :
    restrictEntries restrict' call l m g = some p := by
  induction l generalizing m g with
  | nil => exact hp
  | cons e l ih =>
    obtain ⟨⟨k, v⟩, i⟩ := e
    cases k with
    | string s =>
      obtain ⟨q, hq, hrest⟩ := Option.bind_eq_some_iff.mp hp
      exact Option.bind_eq_some_iff.mpr ⟨q, h _ _ _ _ hq, ih hrest⟩
    | _ => exact ih hp

theorem restrictItems_mono {call : List Nat} {r : Nat} {l : List Nat} {g g' : Graph}
    (hg : restrictItems restrict call r l g = some g') :
    restrictItems restrict' call r l g = some g' := by
  induction l generalizing g with
  | nil => exact hg
  | cons i l ih =>
    obtain ⟨q, hq, hrest⟩ := Option.bind_eq_some_iff.mp hg
    exact Option.bind_eq_some_iff.mpr ⟨q, h _ _ _ _ hq, ih hrest⟩

end Loops

theorem answersAs_succ (rt : Runtime) (n : Nat) :
    AnswersAs (restrictMapKeysToStrings rt n) (restrictMapKeysToStrings rt (n + 1)) := by
  induction n with
  | zero =>
    intro call v g p hp
    cases hp
  | succ n ih =>
    intro call v g p hp
    rw [restrictMapKeysToStrings] at hp ⊢
    cases hshape : g.shape v with
    | dict items =>
      simp only [hshape] at hp ⊢
      obtain ⟨q, hq, hrest⟩ := Option.bind_eq_some_iff.mp hp
      exact Option.bind_eq_some_iff.mpr ⟨q, restrictEntries_mono ih hq, hrest⟩
    | list r items =>
      simp only [hshape] at hp ⊢
      obtain ⟨q, hq, hrest⟩ := Option.bind_eq_some_iff.mp hp
      exact Option.bind_eq_some_iff.mpr ⟨q, restrictItems_mono ih hq, hrest⟩
    | _ =>
      simp only [hshape] at hp ⊢
      exact hp

theorem answersAs_of_le (rt : Runtime) {m n : Nat} (hle : m ≤ n) :
    AnswersAs (restrictMapKeysToStrings rt m) (restrictMapKeysToStrings rt n) := by
  induction hle with
  | refl => exact fun _ _ _ _ h => h
  | step _ ih => exact fun call v g p h => answersAs_succ rt _ call v g p (ih call v g p h)

/-- The other result is the same, or this one is an overflow. -/
def Settles {α : Type} (o o' : Except Stop α) : Prop := o = .error .overflow ∨ o' = o

variable {α β : Type} {o o' : Except Stop α}

theorem settles_refl (o : Except Stop α) : Settles o o := .inr rfl

theorem Settles.map {f : α → β} (h : Settles o o') : Settles (o.map f) (o'.map f) := by
  obtain rfl | rfl := h
  · exact .inl rfl
  · exact .inr rfl

theorem Settles.wrap {key : GoString} (h : Settles o o') :
    Settles (o.mapError (.wrap key)) (o'.mapError (.wrap key)) := by
  obtain rfl | rfl := h
  · exact .inl rfl
  · exact .inr rfl

theorem Settles.bind {f f' : α → Except Stop β} (h : Settles o o')
    (hf : ∀ a, Settles (f a) (f' a)) : Settles (o >>= f) (o' >>= f') := by
  obtain rfl | rfl := h
  · exact .inl rfl
  · cases o' with
    | error stop => exact .inr rfl
    | ok a => exact hf a

theorem settles_bindEach {γ : Type} {f f' : γ → Graph → Except Stop (β × Graph)}
    (hf : ∀ c g, Settles (f c g) (f' c g)) (l : List γ) (g : Graph) :
    Settles (bindEach f l g) (bindEach f' l g) := by
  induction l generalizing g with
  | nil => exact settles_refl _
  | cons c l ih => exact (hf c g).bind fun p => (ih p.2).bind fun q => settles_refl _

variable {τ : Type} (rt : Runtime) (typ : τ → DestKind τ)

/-- What `bind` does does not depend on its bounds. -/
theorem settles_of_le {depth depth' n n' : Nat} (hdepth : depth ≤ depth') (hn : n ≤ n')
    (call : List Nat) (v : Value) (kind : DestKind τ) (reqSK : Bool) (g : Graph) :
    Settles (bind rt typ depth n call v kind reqSK g)
      (bind rt typ depth' n' call v kind reqSK g) := by
  induction n generalizing n' call v kind reqSK g with
  | zero => exact .inl rfl
  | succ n ih =>
    obtain ⟨n', rfl⟩ := Nat.exists_eq_add_of_lt hn
    have ih := fun call v kind reqSK g => ih (Nat.le_add_right n n') call v kind reqSK g
    unfold bind
    cases kind with
    | interface =>
      cases reqSK with
      | false => exact settles_refl _
      | true =>
        simp only [if_true]
        cases hres : restrictMapKeysToStrings rt depth call v g with
        | none => exact .inl rfl
        | some p =>
          rw [answersAs_of_le rt hdepth call v g p hres]
          exact settles_refl _
    | slice elem =>
      refine .map ?_
      cases g.shape v with
      | list r items => exact settles_bindEach (fun i g => (ih _ _ _ _ _).wrap) _ _
      | set items => exact settles_bindEach (fun p g => (ih _ _ _ _ _).wrap) _ _
      | tuple items => exact settles_bindEach (fun p g => (ih _ _ _ _ _).wrap) _ _
      | _ => exact settles_refl _
    | struct fields =>
      refine .map ?_
      cases g.shape v with
      | dict items =>
        refine settles_bindEach (fun p g => ?_) _ _
        split
        · exact ih _ _ _ _ _
        · cases p.1.find rt items with
          | none => exact settles_refl _
          | some w => exact (ih _ _ _ _ _).wrap
      | object arguments =>
        dsimp only
        split
        · exact settles_refl _
        · exact settles_bindEach (fun p g => (ih _ _ _ _ _).wrap) _ _
      | _ => exact settles_refl _
    | map key elem =>
      cases g.shape v with
      | dict items =>
        refine .map (settles_bindEach (fun p g => ?_) _ _)
        exact (settles_refl _).bind fun k => (ih _ _ _ _ _).map
      | _ => exact settles_refl _
    | _ => exact settles_refl _

end Bounds

end Isthmus.Pickle
