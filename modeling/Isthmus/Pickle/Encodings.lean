import Isthmus.Pickle.Instructions
import Mathlib.Data.List.Forall2

/-!
# Standard encodings

The grammar of the programs that a pickler writes for a value. A program pushes
one value; a list, a dict or a set is pushed empty and filled afterwards, item
by item or in batches behind a mark. A value can be memoized when it is at the
top of the stack, and a memoized value can stand for itself, but a list, a dict
or a set only after it has been filled.

## Main definitions

- `Tree`: the values that are encoded
- `Denotes`: a value of the machine is equal to a tree
- `Encodes`: the grammar
- `Encoding`: the encodings of a tree as bytes
-/

namespace Isthmus.Pickle

/-! ## Trees -/

/-- The keys of a dict and the elements of a set. -/
inductive Scalar where
  | bool (b : Bool)
  | int (n : Int)
  | string (s : GoString)
  deriving DecidableEq

def Scalar.value : Scalar → Value
  | .bool b => .bool b
  | .int n => .int n
  | .string s => .string s

inductive Tree where
  | none
  | scalar (k : Scalar)
  | symbol (module attr : GoString)
  | tuple (items : List Tree)
  | object (cls : Tree) (arguments : List Tree)
  | list (items : List Tree)
  | dict (items : List (Scalar × Tree))
  | set (items : List Scalar)

/-- A value of the machine is equal to a tree. -/
inductive Denotes (heap : Heap) : Value → Tree → Prop
  | none : Denotes heap .none .none
  | scalar (k : Scalar) : Denotes heap k.value (.scalar k)
  | symbol (module attr : GoString) : Denotes heap (.symbol module attr) (.symbol module attr)
  | tuple {vs : List Value} {items : List Tree} (h : List.Forall₂ (Denotes heap) vs items) :
    Denotes heap (.tuple vs) (.tuple items)
  | object {w : Value} {vs : List Value} {cls : Tree} {arguments : List Tree}
    (hcls : Denotes heap w cls) (h : List.Forall₂ (Denotes heap) vs arguments) :
    Denotes heap (.object w vs) (.object cls arguments)
  | list {r : Nat} {vs : List Value} {items : List Tree} (hr : heap[r]? = some (.list vs))
    (h : List.Forall₂ (Denotes heap) vs items) : Denotes heap (.ref r) (.list items)
  | dict {r : Nat} {es : List (Value × Value)} {items : List (Scalar × Tree)}
    (hr : heap[r]? = some (.dict es))
    (hkeys : es.map Prod.fst = items.map fun e => e.1.value)
    (h : List.Forall₂ (Denotes heap) (es.map Prod.snd) (items.map Prod.snd)) :
    Denotes heap (.ref r) (.dict items)
  | set {r : Nat} {items : List Scalar} (hr : heap[r]? = some (.set (items.map Scalar.value))) :
    Denotes heap (.ref r) (.set items)

/-! ## The grammar -/

/-- The entries of the memo: what is known of a value that can be fetched. -/
abbrev Memo := List (Option Tree)

/-- Entries that become known. -/
def Memo.close (memo : Memo) (own : List Nat) (t : Tree) : Memo :=
  memo.mapIdx fun i e => if i ∈ own then some t else e

/-- The tree of a list, a dict or a set, from what is pushed for its items. -/
inductive Contents : Kind → List (List Tree) → Tree → Prop
  | list (items : List Tree) : Contents .list (items.map fun t => [t]) (.list items)
  | dict {items : List (Scalar × Tree)} (h : (items.map Prod.fst).Nodup) :
    Contents .dict (items.map fun e => [.scalar e.1, e.2]) (.dict items)
  | set {items : List Scalar} (h : items.Nodup) :
    Contents .set (items.map fun k => [.scalar k]) (.set items)

/-- The instruction that adds one item. -/
def Kind.single : Kind → Option Instr
  | .list => some .append
  | .dict => some .setItem
  | .set => none

/-- The instruction that adds the items behind a mark. -/
def Kind.batch : Kind → Instr
  | .list => .appends
  | .dict => .setItems
  | .set => .addItems

/-- What a program does: it pushes a value, or values, or fills the value at the
top of the stack. The entries of the memo that hold the value are `own`. -/
inductive Phrase where
  | value (t : Tree)
  | values (ts : List Tree)
  | filling (k : Kind) (items : List (List Tree)) (own : List Nat)

/-- The programs of a phrase, with the memo before and after. -/
inductive Encodes : Memo → List Instr → Phrase → Memo → Prop
  | none {M : Memo} : Encodes M [.none] (.value .none) M
  | bool {M : Memo} (b : Bool) : Encodes M [.bool b] (.value (.scalar (.bool b))) M
  | int {M : Memo} (n : Int) : Encodes M [.int n] (.value (.scalar (.int n))) M
  | string {M : Memo} (s : GoString) : Encodes M [.string s] (.value (.scalar (.string s))) M
  | symbol {M M' : Memo} {c : List Instr} {module attr : GoString}
    (h : Encodes M c (.values [.scalar (.string module), .scalar (.string attr)]) M') :
    Encodes M (c ++ [.stackGlobal]) (.value (.symbol module attr)) M'
  | emptyTuple {M : Memo} : Encodes M [.emptyTuple] (.value (.tuple [])) M
  | tuple1 {M M' : Memo} {c : List Instr} {t₁ : Tree} (h : Encodes M c (.values [t₁]) M') :
    Encodes M (c ++ [.tuple1]) (.value (.tuple [t₁])) M'
  | tuple2 {M M' : Memo} {c : List Instr} {t₁ t₂ : Tree}
    (h : Encodes M c (.values [t₁, t₂]) M') :
    Encodes M (c ++ [.tuple2]) (.value (.tuple [t₁, t₂])) M'
  | tuple3 {M M' : Memo} {c : List Instr} {t₁ t₂ t₃ : Tree}
    (h : Encodes M c (.values [t₁, t₂, t₃]) M') :
    Encodes M (c ++ [.tuple3]) (.value (.tuple [t₁, t₂, t₃])) M'
  | tuple {M M' : Memo} {c : List Instr} {items : List Tree}
    (h : Encodes M c (.values items) M') :
    Encodes M (.mark :: c ++ [.tuple]) (.value (.tuple items)) M'
  | object {M M' : Memo} {c : List Instr} {cls : Tree} {arguments : List Tree}
    (h : Encodes M c (.values [cls, .tuple arguments]) M') :
    Encodes M (c ++ [.newObj]) (.value (.object cls arguments)) M'
  | new {M M' : Memo} {c : List Instr} {k : Kind} {items : List (List Tree)} {own : List Nat}
    {t : Tree} (h : Encodes M c (.filling k items own) M') (ht : Contents k items t) :
    Encodes M (.new k :: c) (.value t) (M'.close own t)
  | get {M : Memo} {i : Nat} {t : Tree} (h : M[i]? = some (some t)) :
    Encodes M [.get i] (.value t) M
  | memoize {M M' : Memo} {c : List Instr} {t : Tree} (h : Encodes M c (.value t) M') :
    Encodes M (c ++ [.memoize]) (.value t) (M' ++ [some t])
  | nil {M : Memo} : Encodes M [] (.values []) M
  | cons {M M₁ M' : Memo} {c c' : List Instr} {t : Tree} {ts : List Tree}
    (h : Encodes M c (.value t) M₁) (hs : Encodes M₁ c' (.values ts) M') :
    Encodes M (c ++ c') (.values (t :: ts)) M'
  | empty {M : Memo} (k : Kind) : Encodes M [] (.filling k [] []) M
  | memoizeOpen {M M' : Memo} {c : List Instr} {k : Kind} {items : List (List Tree)}
    {own : List Nat} (h : Encodes M c (.filling k items own) M') :
    Encodes M (c ++ [.memoize]) (.filling k items (M'.length :: own)) (M' ++ [.none])
  | single {M M₁ M' : Memo} {c c' : List Instr} {k : Kind} {items : List (List Tree)}
    {own : List Nat} {item : List Tree} {i : Instr} (h : Encodes M c (.filling k items own) M₁)
    (hi : k.single = some i) (hs : Encodes M₁ c' (.values item) M') :
    Encodes M (c ++ c' ++ [i]) (.filling k (items ++ [item]) own) M'
  | batch {M M₁ M' : Memo} {c c' : List Instr} {k : Kind} {items items' : List (List Tree)}
    {own : List Nat} (h : Encodes M c (.filling k items own) M₁)
    (hs : Encodes M₁ c' (.values items'.flatten) M') :
    Encodes M (c ++ .mark :: c' ++ [k.batch]) (.filling k (items ++ items') own) M'

section Batches

variable {M M₁ M' : Memo} {c c' : List Instr}

theorem Memo.close_nil (memo : Memo) (t : Tree) : memo.close [] t = memo := by
  refine List.ext_getElem (by simp [Memo.close]) fun i _ _ => ?_
  simp [Memo.close]

/-- A list, a dict or a set that stays empty. -/
theorem Encodes.unfilled {k : Kind} {t : Tree} (ht : Contents k [] t) :
    Encodes M [.new k] (.value t) M := by
  have hnew := Encodes.new (.empty (M := M) k) ht
  rwa [Memo.close_nil] at hnew

/-- A key of a dict and what is under it. -/
theorem Encodes.entry (k : Scalar) {i : Instr} {t : Tree} {ts : List Tree}
    (hk : Encodes M [i] (.value (.scalar k)) M) (h : Encodes M c (.value t) M₁)
    (hs : Encodes M₁ c' (.values ts) M') :
    Encodes M (i :: (c ++ c')) (.values (.scalar k :: t :: ts)) M' := .cons hk (.cons h hs)

/-- A list, a dict or a set that is filled at once. -/
theorem Encodes.filled {k : Kind} {items : List (List Tree)} {t : Tree}
    (h : Encodes M c (.values items.flatten) M') (ht : Contents k items t) :
    Encodes M (.new k :: .mark :: c ++ [k.batch]) (.value t) M' := by
  have hnew := Encodes.new (.batch (.empty k) h) ht
  rwa [Memo.close_nil] at hnew

end Batches

/-- The encodings of a tree: the bytes of a program, with frames anywhere. -/
def Encoding (t : Tree) (bytes : List UInt8) : Prop :=
  ∃ code M, Program code bytes ∧ Encodes [] (code.filter (· ≠ .frame)) (.value t) M

end Isthmus.Pickle
