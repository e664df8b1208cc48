import Isthmus.Pickle.Stored

/-!
# The `.archipelago` file

`readAPFile` decodes the multidata into the Go type `apdata`. What is pickled can share its
lists, and `bind` changes lists in place where a field asks for string keys, but no field of
`apdata` sees it: what is read is what was pickled.

## Main definitions

- `GoType.kind`: the Go types of the multidata
- `readAPFile`: the function, as the source has it

## Main results

- `readAPFile_stored_iff`: when the multidata is read
-/

namespace Isthmus

open Pickle

/-! ## The types -/

/-- The Go types that `apdata` is made of. -/
inductive GoType where
  | int
  | int64
  | string
  | any
  | slice (elem : GoType)
  | map (key : KeyKind) (elem : GoType)
  | apdata
  | apserveroptions
  | apslot
  | apslotType
  | apgamedata

namespace GoType

/-- A field without a tag. -/
def field (name : String) (type : GoType) : Pickle.Field GoType := ⟨name.toList, [], type⟩

def originalTag : GoString := lit "require_string_keys,remainder"

def apgamedataFields : List (Pickle.Field GoType) :=
  [field "ItemNameToID" (.map .string .int64), field "LocationNameToID" (.map .string .int64),
    field "Checksum" .string, ⟨"Original".toList, originalTag, .map .string .any⟩]

def apdataFields : List (Pickle.Field GoType) :=
  [field "ConnectNames" (.map .string (.slice .int)),
    field "Spheres" (.slice (.map (.int .int) (.slice .int64))),
    field "Locations" (.map (.int .int) (.map (.int .int64) (.slice .int64))),
    field "Datapackage" (.map .string .apgamedata),
    field "PrecollectedItems" (.map (.int .int) (.slice .int64)),
    field "SlotInfo" (.map (.int .int) .apslot),
    ⟨"SlotData".toList, requireStringKeysTag, .map (.int .int) (.map .string .any)⟩,
    field "Version" (.slice .int), field "Tags" (.slice .string),
    field "ServerOptions" .apserveroptions, field "SeedName" .string]

def kind : GoType → DestKind GoType
  | .int => .int .int
  | .int64 => .int .int64
  | .string => .string
  | .any => .interface
  | .slice elem => .slice elem
  | .map key elem => .map key elem
  | .apdata => .struct apdataFields
  | .apserveroptions => .struct [field "LocationCheckPoints" .int, field "HintCost" .int,
      field "ReleaseMode" .string, field "CollectMode" .string, field "RemainingMode" .string]
  | .apslot => .struct [field "Name" .string, field "Game" .string, field "Type" .apslotType,
      field "GroupMembers" (.slice .string)]
  | .apslotType => .struct [field "Code" .int]
  | .apgamedata => .struct apgamedataFields

/-- The types of the fields up to `Locations`, and their parts. They hold no interface. -/
def IsEarly : GoType → Prop
  | .int | .int64 | .string => True
  | .slice elem => elem.IsEarly
  | .map _ elem => elem.IsEarly
  | _ => False

/-- The types of the other fields, and their parts. They hold no list of dicts. -/
def IsLate : GoType → Prop
  | .slice elem => elem = .int ∨ elem = .int64 ∨ elem = .string
  | .map _ elem => elem.IsLate
  | .apdata => False
  | _ => True

theorem sturdy_early : Sturdy kind {t | t.IsEarly} fun P => P = ∅ where
  parts s hs u hu := by
    cases s with
    | slice | map =>
      obtain rfl := List.mem_singleton.mp hu
      exact hs
    | int | int64 | string => cases hu
    | _ => exact False.elim hs
  slices _ _ _ _ _ _ hP := hP
  interfaces s hs hk := by
    cases s with
    | any => exact False.elim hs
    | _ => cases hk
  remainders s hs fields hk := by
    cases s with
    | apdata | apserveroptions | apslot | apslotType | apgamedata => exact False.elim hs
    | _ => cases hk

/-- A field without a tag has a value of its own. -/
theorem field_not_isRemainder (name : String) (type : GoType) :
    (field name type).isRemainder = false := not_isRemainder rfl

theorem sturdy_late : Sturdy kind {t | t.IsLate} fun _ => True where
  parts s hs u hu := by
    cases s with
    | slice elem =>
      obtain rfl := List.mem_singleton.mp hu
      obtain rfl | rfl | rfl := hs <;> trivial
    | map =>
      obtain rfl := List.mem_singleton.mp hu
      exact hs
    | int | int64 | string | any => cases hu
    | apdata => exact False.elim hs
    | _ =>
      simp only [kind, apgamedataFields, DestKind.parts, field, List.map_cons, List.map_nil,
        List.mem_cons, List.not_mem_nil, or_false] at hu
      rcases hu with rfl | rfl | rfl | rfl | rfl <;> simp [IsLate]
  slices s hs elem hk htakes := by
    cases s with
    | slice elem' =>
      cases hk
      obtain rfl | rfl | rfl := hs <;> exact False.elim htakes
    | _ => cases hk
  interfaces _ _ _ _ _ _ := trivial
  remainders s hs fields hk f hf hrem := by
    cases s with
    | apdata => exact False.elim hs
    | apgamedata =>
      cases hk
      simp only [apgamedataFields, List.mem_cons, List.not_mem_nil, or_false] at hf
      obtain rfl | rfl | rfl | rfl := hf
      · cases (field_not_isRemainder _ _).symm.trans hrem
      · cases (field_not_isRemainder _ _).symm.trans hrem
      · cases (field_not_isRemainder _ _).symm.trans hrem
      · exact ⟨_, _, rfl⟩
    | apserveroptions | apslot | apslotType =>
      cases hk
      simp only [List.mem_cons, List.not_mem_nil, or_false] at hf
      rcases hf with rfl | rfl | rfl | rfl | rfl <;>
        cases (field_not_isRemainder _ _).symm.trans hrem
    | _ => cases hk

/-- No field of `apdata` is given the whole dict. -/
theorem apdataFields_not_isRemainder : ∀ f ∈ apdataFields, f.isRemainder = false := by
  decide

end GoType

/-! ## The file -/

def expectedAPFileVersion : UInt8 := 3

/-- Why `readAPFile` returns no data. -/
inductive ReadFault where
  | unopened
  | noVersion
  | version (version : UInt8)
  | decompress
  | decode (e : DecodeFault)

/-- `readAPFile`, of a file that is opened if it is there. Of a stream with a right header, `zlib`
gives what can be read of it. -/
def readAPFile (rt : Runtime) (zlib : List UInt8 → Option (List UInt8)) (depth n : Nat) :
    Option (List UInt8) → Except ReadFault (Bound × Graph)
  | none => .error .unopened
  | some [] => .error .noVersion
  | some (version :: r) =>
    if version ≠ expectedAPFileVersion then .error (.version version)
    else
      match zlib r with
      | none => .error .decompress
      | some src => (decode rt GoType.kind depth n .apdata src).mapError .decode

section Read

variable {rt : Runtime} {zlib : List UInt8 → Option (List UInt8)} {r src : List UInt8} {v : Value}
  {heap : Heap}

/-- `apdata` is bound from the dict of the multidata. -/
theorem bind_apdata {items : List (Scalar × Tree)} (depth n : Nat)
    (hdistinct : (Graph.ofHeap heap).KeysDistinct)
    (hv : Picked rt GoType.apdataFields heap v items)
    (hfits : Storable rt GoType.kind (.dict items) (GoType.kind .apdata))
    (hn : 2 * sizeOf (Tree.dict items) ≤ n) (hdepth : sizeOf (Tree.dict items) ≤ depth) :
    ∃ b g, bind rt GoType.kind depth (n + 1) [] v (GoType.kind .apdata) false (.ofHeap heap) =
      .ok (b, g) ∧ Stored rt GoType.kind (Shown g) (.dict items) (GoType.kind .apdata) b := by
  have hsplit : GoType.kind .apdata =
      .struct (GoType.apdataFields.take 3 ++ GoType.apdataFields.drop 3) := rfl
  rw [hsplit] at hfits ⊢
  refine bind_stored rt GoType.sturdy_early GoType.sturdy_late ?_ ?_ ?_ hdistinct hv hfits hn hdepth
  · simp [GoType.apdataFields, GoType.field, GoType.IsEarly]
  · simp [GoType.apdataFields, GoType.field, GoType.IsLate]
  · exact GoType.apdataFields_not_isRemainder

/-- The pickle in an `.archipelago` file is a dict that has trees under the names of the fields
and is read by `readAPFile`, exactly if it is such a dict and the trees have the form of
`apdata`, whatever is under its other keys, whatever the pickler has shared in it and whatever
`bind` changes in place. -/
theorem readAPFile_stored_iff (rt : Runtime) (zlib : List UInt8 → Option (List UInt8))
    (items : List (Scalar × Tree)) (hzlib : zlib r = some src) (hsrc : DecodesTo src v heap) :
    (Picked rt GoType.apdataFields heap v items ∧
      ∃ N, ∀ depth n, N ≤ depth → N ≤ n → ∃ b g,
        readAPFile rt zlib depth n (some (expectedAPFileVersion :: r)) = .ok (b, g) ∧
          Stored rt GoType.kind (Shown g) (.dict items) (GoType.kind .apdata) b) ↔
      Picked rt GoType.apdataFields heap v items ∧
        Storable rt GoType.kind (.dict items) (GoType.kind .apdata) := by
  refine and_congr_right fun hv => ⟨?_, fun hfits => ?_⟩
  · rintro ⟨N, hread⟩
    obtain ⟨b, g, -, hb⟩ := hread N N (Nat.le_refl N) (Nat.le_refl N)
    exact ⟨b, hb.mono fun _ _ _ => trivial⟩
  · obtain ⟨version, rest, rfl, hversion, hexec⟩ := hsrc
    refine ⟨2 * sizeOf (Tree.dict items) + 1, fun depth n hdepth hn => ?_⟩
    obtain ⟨m, rfl⟩ := Nat.exists_eq_add_one_of_ne_zero (n := n) (by omega)
    obtain ⟨b, g, hbind, hb⟩ := bind_apdata depth m
      (keysDistinct_ofHeap (exec_wellFormed hexec).2) hv hfits (by omega) (by omega)
    refine ⟨b, g, ?_, hb⟩
    rw [readAPFile, if_neg (not_not_intro rfl), hzlib]
    dsimp only
    rw [decode, if_neg (not_not_intro rfl), if_neg hversion, hexec]
    dsimp only
    rw [hbind]
    rfl

end Read

/-! ## A file -/

def tagsTree : Tree := .list [.scalar (.string (lit "AP"))]

def slotDataTree : Tree := .dict [(.int 1, .dict [(.string (lit "tags"), tagsTree)])]

def optionItems : List (Scalar × Tree) :=
  [(.string (lit "location_check_points"), .scalar (.int 1)),
    (.string (lit "hint_cost"), .scalar (.int 10)),
    (.string (lit "release_mode"), .scalar (.string (lit "auto"))),
    (.string (lit "collect_mode"), .scalar (.string (lit "auto"))),
    (.string (lit "remaining_mode"), .scalar (.string (lit "goal")))]

/-- The tags of the seed are in its slot data too. -/
def sharedTagsItems : List (Scalar × Tree) :=
  [(.string (lit "connect_names"), .dict []), (.string (lit "spheres"), .list []),
    (.string (lit "locations"), .dict []), (.string (lit "datapackage"), .dict []),
    (.string (lit "precollected_items"), .dict []), (.string (lit "slot_info"), .dict []),
    (.string (lit "slot_data"), slotDataTree), (.string (lit "version"), .list []),
    (.string (lit "tags"), tagsTree), (.string (lit "server_options"), .dict optionItems),
    (.string (lit "seed_name"), .scalar (.string (lit "1")))]

/-- The list of the tags is memoized. -/
def slotDataCode : List Instr :=
  [.new .dict, .mark, .int 1, .new .dict, .mark, .string (lit "tags"), .new .list, .mark,
    .string (lit "AP"), .appends, .memoize, .setItems, .setItems]

def optionCode : List Instr :=
  [.new .dict, .mark, .string (lit "location_check_points"), .int 1, .string (lit "hint_cost"),
    .int 10, .string (lit "release_mode"), .string (lit "auto"), .string (lit "collect_mode"),
    .string (lit "auto"), .string (lit "remaining_mode"), .string (lit "goal"), .setItems]

def sharedTagsCode : List Instr :=
  [.new .dict, .mark, .string (lit "connect_names"), .new .dict, .string (lit "spheres"), .new .list,
    .string (lit "locations"), .new .dict, .string (lit "datapackage"), .new .dict,
    .string (lit "precollected_items"), .new .dict, .string (lit "slot_info"), .new .dict,
    .string (lit "slot_data")] ++ slotDataCode ++
  [.string (lit "version"), .new .list, .string (lit "tags"), .get 0,
    .string (lit "server_options")] ++ optionCode ++
  [.string (lit "seed_name"), .string (lit "1"), .setItems]

theorem slotDataTree_encodes : Encodes [] slotDataCode (.value slotDataTree) [some tagsTree] := by
  have hlist : Contents .list [[.scalar (.string (lit "AP"))]] tagsTree := .list [_]
  have htags := Encodes.memoize (.filled (.cons (.string (M := []) (lit "AP")) .nil) hlist)
  have hslot : Contents .dict [[.scalar (.string (lit "tags")), tagsTree]]
      (.dict [(.string (lit "tags"), tagsTree)]) := @Contents.dict [(_, _)] (by decide)
  have hdict : Contents .dict [[.scalar (.int 1), .dict [(.string (lit "tags"), tagsTree)]]]
      slotDataTree := @Contents.dict [(_, _)] (by decide)
  have hinner := Encodes.filled (.entry _ (.string _) htags .nil) hslot
  exact .filled (.entry _ (.int 1) hinner .nil) hdict

theorem optionItems_encodes (M : Memo) :
    Encodes M optionCode (.value (.dict optionItems)) M := by
  have hcontents : Contents .dict _ (.dict optionItems) := .dict (by decide)
  have hvalues := Encodes.entry _ (.string (lit "location_check_points")) (.int 1)
    (.entry _ (.string (lit "hint_cost")) (.int 10) (.entry _ (.string (lit "release_mode"))
      (.string (lit "auto")) (.entry _ (.string (lit "collect_mode")) (.string (lit "auto"))
        (.entry _ (.string (lit "remaining_mode")) (.string (lit "goal")) (.nil (M := M))))))
  exact .filled hvalues hcontents

theorem sharedTags_encodes :
    Encodes [] sharedTagsCode (.value (.dict sharedTagsItems)) [some tagsTree] := by
  have hcontents : Contents .dict _ (.dict sharedTagsItems) := .dict (by decide)
  have hdict : ∀ M, Encodes M [.new .dict] (.value (.dict [])) M :=
    fun _ => .unfilled (@Contents.dict [] List.nodup_nil)
  have hlist : ∀ M, Encodes M [.new .list] (.value (.list [])) M :=
    fun _ => .unfilled (.list [])
  have htags : Encodes [some tagsTree] [.get 0] (.value tagsTree) [some tagsTree] := .get rfl
  -- behind the slot data, the tags are in the memo
  have hlate := Encodes.entry _ (.string (lit "version")) (hlist _)
    (.entry _ (.string (lit "tags")) htags
      (.entry _ (.string (lit "server_options")) (optionItems_encodes _)
        (.entry _ (.string (lit "seed_name")) (.string (lit "1")) .nil)))
  have hvalues := Encodes.entry _ (.string (lit "connect_names")) (hdict _)
    (.entry _ (.string (lit "spheres")) (hlist _) (.entry _ (.string (lit "locations")) (hdict _)
      (.entry _ (.string (lit "datapackage")) (hdict _)
        (.entry _ (.string (lit "precollected_items")) (hdict _)
          (.entry _ (.string (lit "slot_info")) (hdict _)
            (.entry _ (.string (lit "slot_data")) slotDataTree_encodes hlate))))))
  exact .filled hvalues hcontents

theorem sharedTags_fits : Storable asciiRuntime GoType.kind (.dict sharedTagsItems)
    (GoType.kind .apdata) := by
  have hempty : ∀ key elem, Stored asciiRuntime GoType.kind Anything (.dict [])
      (.map key elem) (.map []) := fun key elem => stored_map .nil List.nodup_nil .nil
  have hnone : ∀ elem, Stored asciiRuntime GoType.kind Anything (.list [])
      (.slice elem) (.slice []) := fun elem => stored_list .nil
  have hint : ∀ n : Nat, n < 100 →
      Stored asciiRuntime GoType.kind Anything (.scalar (.int n)) (.int .int) (.int n) :=
    fun n hn => .int (by simp only [IntSize.Fits]; omega)
  have htags : Stored asciiRuntime GoType.kind Anything tagsTree (.slice .string)
      (.slice [.string (lit "AP")]) := stored_list (.cons (.string _) .nil)
  have hslot : Stored asciiRuntime GoType.kind Anything
      (.dict [(.string (lit "tags"), tagsTree)]) (.map .string .any)
      (.map [(.string (lit "tags"), .interface (.ref 0))]) :=
    stored_map (.refl _) (List.nodup_singleton _)
      (.cons ⟨.string _, .interface (by simp [tagsTree]) trivial⟩ .nil)
  have hslots : Stored asciiRuntime GoType.kind Anything slotDataTree
      (.map (.int .int) (.map .string .any))
      (.map [(.int 1, .map [(.string (lit "tags"), .interface (.ref 0))])]) :=
    stored_map (.refl _) (List.nodup_singleton _)
      (.cons ⟨.int (by simp [IntSize.Fits]), hslot⟩ .nil)
  have hoptions : Stored asciiRuntime GoType.kind Anything (.dict optionItems)
      (GoType.kind .apserveroptions) (.struct [.int 1, .int 10, .string (lit "auto"),
        .string (lit "auto"), .string (lit "goal")]) :=
    stored_dict (fieldTrees_of_keys (List.Subset.refl _) (by decide) (by decide) (by decide))
      (.cons (hint 1 (by decide)) (.cons (hint 10 (by decide)) (.cons (.string _)
        (.cons (.string _) (.cons (.string _) .nil)))))
  refine ⟨_, stored_dict (fieldTrees_of_keys (List.Subset.refl _) (by decide)
    GoType.apdataFields_not_isRemainder (by decide))
    (.cons (hempty _ _) (.cons (hnone _) (.cons (hempty _ _) (.cons (hempty _ _)
      (.cons (hempty _ _) (.cons (hempty _ _) (.cons hslots (.cons (hnone _) (.cons htags
        (.cons hoptions (.cons (.string _) .nil)))))))))))⟩

/-- The pickle of the dict. -/
def sharedTags : List UInt8 :=
  opcodePROTO :: 4 :: (sharedTagsCode.flatMap Instr.write ++ [opcodeSTOP])

theorem sharedTags_decodes : ∃ v heap, DecodesTo sharedTags v heap ∧
    Denotes heap v (.dict sharedTagsItems) := by
  have hshort : ∀ i ∈ sharedTagsCode, i.Short := by decide
  have hcode : sharedTagsCode.filter (· ≠ .frame) = sharedTagsCode := rfl
  have hencodes := sharedTags_encodes
  rw [← hcode] at hencodes
  obtain ⟨v, heap, hexec, hv⟩ := hencodes.exec_bytes (program_write hshort) []
  exact ⟨v, heap, ⟨4, _, rfl, by decide, hexec⟩, hv⟩

/-- A zlib stream of one stored block is a header of 7 bytes, the block, and a checksum. -/
def readStored (r : List UInt8) : Option (List UInt8) := some ((r.drop 7).take (r.length - 11))

theorem readStored_block {header block checksum : List UInt8} (hheader : header.length = 7)
    (hchecksum : checksum.length = 4) :
    readStored (header ++ block ++ checksum) = some block := by
  have hdrop : (header ++ block ++ checksum).drop 7 = block ++ checksum := by
    rw [List.append_assoc, ← hheader, List.drop_left]
  have hlength : (header ++ block ++ checksum).length - 11 = block.length := by
    rw [List.length_append, List.length_append, hheader, hchecksum]
    omega
  rw [readStored, hdrop, hlength, List.take_left]

def sharedTagsFile : List UInt8 :=
  expectedAPFileVersion :: ([0x78, 0x01, 0x01, 0x61, 0x01, 0x9e, 0xfe] ++ sharedTags ++
    [0x4d, 0x97, 0x64, 0xdd])

/-- The file is read, with the tags that are in the slot data too. -/
theorem readAPFile_sharedTags : ∃ N, ∀ depth n, N ≤ depth → N ≤ n → ∃ b g,
    readAPFile asciiRuntime readStored depth n (some sharedTagsFile) = .ok (b, g) ∧
      Stored asciiRuntime GoType.kind (Shown g) (.dict sharedTagsItems) (GoType.kind .apdata) b := by
  obtain ⟨v, heap, hdecodes, hv⟩ := sharedTags_decodes
  exact ((readAPFile_stored_iff asciiRuntime readStored sharedTagsItems
    (readStored_block rfl rfl) hdecodes).mpr ⟨hv.picked _ _, sharedTags_fits⟩).2

end Isthmus
