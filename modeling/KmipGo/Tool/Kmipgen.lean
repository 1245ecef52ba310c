import KmipGo.Registry.History
import KmipGo.Text.Numbers

/-! # The generator of registrations

`prepareInput` of `cmd/kmipgen/main.go` and the code that its templates make of the
result.  A Go map is an association list, in the order in which the one loop over it
goes; a statement about all lists is about all orders.

The generated file is modelled by what its declarations mean: the identifiers that
it declares, the keys of its map literals, the table that each `New…Enum` builds, and
`RegisterGeneratedDefinitions`.  Its loops go over maps as well, so they are given
the entries in any order.  Full names stand in string literals, and are what the
compiler reads there.

* `prepareInput_stable` — the generated file does not depend on the order of the maps
  of the specification.
* `generated_registers` — if the file compiles, the registry afterwards answers
  as the specification says.
-/

namespace KmipGo.Kmipgen

open KmipGo.Lib KmipGo.Ttlv KmipGo.Reg KmipGo.Text

/-! ## Specifications -/

/-- A map from names to JSON values. -/
abbrev Values := AList fun _ : GoString => Json

structure EnumDef where
  name : GoString
  comment : GoString
  values : Values
  tags : List GoString

structure Specifications where
  enums : List EnumDef
  masks : List EnumDef
  tags : Values
  package : GoString

structure TagVal where
  fullName : GoString
  name : GoString
  value : BitVec 32
deriving DecidableEq

structure EnumVal where
  name : GoString
  comment : GoString
  var : GoString
  typeName : GoString
  vals : List TagVal
  tags : List GoString
  bitMask : Bool
deriving DecidableEq

structure Inputs where
  tags : List TagVal
  package : GoString
  imports : List GoString
  ttlvPackage : GoString
  enums : List EnumVal
  masks : List EnumVal
deriving DecidableEq

/-- "invalid tag value", with the value and its error. -/
structure InvalidValue where
  value : Json
  error : GenErr

inductive PrepareErr where
  | tag (e : InvalidValue)
  /-- "error parsing enum" -/
  | enum (name : GoString) (e : InvalidValue)
  | mask (name : GoString) (e : InvalidValue)

section

variable (title : Bytes → Bytes) (sort : List TagVal → List TagVal) (room : Bool)

/-- The loop over a map of names to values. -/
def tagVals : List (Sigma fun _ : GoString => Json) → Except InvalidValue (List TagVal)
  | [] => .ok []
  | ⟨key, value⟩ :: rest =>
    match parseUint32 value with
    | .error e => .error ⟨value, e⟩
    | .ok i =>
      match tagVals rest with
      | .error e => .error e
      | .ok vals => .ok (⟨key, normalizeName title key, i⟩ :: vals)

/-- `strings.ToLower(string([]rune(s)[:1]))`.  Slicing goes up to the capacity, which Go leaves open for a
    converted string: without a rune it panics, or takes a zero if there is room for one. -/
def receiver : GoString → Option GoString
  | [] => if room then some [0] else none
  | b :: _ => some (toLower [b])

def toEnumVal (v : EnumDef) : Res InvalidValue EnumVal :=
  match receiver room (normalizeName title v.name) with
  | none => .panic
  | some var =>
    match tagVals title v.values.entries with
    | .error e => .err e
    | .ok vals =>
      .ok
        { name := v.name
          comment := v.comment
          var := var
          typeName := normalizeName title v.name
          vals := sort vals
          tags := v.tags.map (normalizeName title)
          bitMask := false }

/-- The loop over enumerations or masks, with how it wraps an error. -/
def toEnumVals (wrap : GoString → InvalidValue → PrepareErr) (bitMask : Bool) :
    List EnumDef → Res PrepareErr (List EnumVal)
  | [] => .ok []
  | v :: rest =>
    match toEnumVal title sort room v with
    | .panic => .panic
    | .err e => .err (wrap v.name e)
    | .ok ev => do
      let evs ← toEnumVals wrap bitMask rest
      return { ev with bitMask := bitMask } :: evs

def prepareInput (s : Specifications) : Res PrepareErr Inputs :=
  match tagVals title s.tags.entries with
  | .error e => .err (.tag e)
  | .ok tags => do
    let enums ← toEnumVals title sort room .enum false s.enums
    let masks ← toEnumVals title sort room .mask true s.masks
    return {
      tags := sort tags
      package := s.package
      imports := if s.package ≠ lit "ttlv" then [lit "github.com/gemalto/kmip-go/ttlv"] else []
      ttlvPackage := if s.package ≠ lit "ttlv" then lit "ttlv." else []
      enums := enums
      masks := masks }

/-- What `sort.Slice` does with a comparison of values. -/
structure Sorts : Prop where
  perm : ∀ vals, (sort vals).Perm vals
  ascending : ∀ vals, (sort vals).Pairwise fun a b => a.value.toNat ≤ b.value.toNat

end

/-! ## The generated file -/

/-- The identifiers of the template "base". -/
def EnumVal.identifiers (ev : EnumVal) : List GoString :=
  ev.typeName :: ev.vals.map (fun t => ev.typeName ++ t.name) ++
    [ev.typeName ++ lit "Enum", lit "New" ++ ev.typeName ++ lit "Enum"]

def Inputs.all (inp : Inputs) : List EnumVal := inp.enums ++ inp.masks

def Inputs.identifiers (inp : Inputs) : List GoString :=
  inp.tags.map (fun t => lit "Tag" ++ t.name) ++ inp.all.flatMap EnumVal.identifiers ++
    [lit "RegisterGeneratedDefinitions"]

/-- The entries of the map literal `enums`: a tag's name, and the type whose table it gets. -/
def Inputs.enumTags (inp : Inputs) : List (GoString × EnumVal) :=
  inp.all.flatMap fun ev => ev.tags.map fun t => (t, ev)

/-- The compiler refuses what is declared twice, and a constant key that a map literal has twice. -/
structure Inputs.Compiles (inp : Inputs) : Prop where
  identifiers : inp.identifiers.Nodup
  tags : (inp.tags.map TagVal.value).Nodup
  values : ∀ ev ∈ inp.all, (ev.vals.map TagVal.value).Nodup
  enums : (inp.enumTags.map Prod.fst).Nodup

section

-- What the compiler reads between two quotes.
variable (literal : GoString → GoString)

def TagVal.compiled (t : TagVal) : TagVal := { t with fullName := literal t.fullName }

def EnumVal.compiled (ev : EnumVal) : EnumVal := { ev with vals := ev.vals.map (TagVal.compiled literal) }

/-- The templates put full names between quotes as they are, so a compiled file may have others. -/
def Inputs.compiled (inp : Inputs) : Inputs :=
  { inp with
    tags := inp.tags.map (TagVal.compiled literal)
    enums := inp.enums.map (EnumVal.compiled literal)
    masks := inp.masks.map (EnumVal.compiled literal) }

/-- A text without quotes, backslashes and newlines stands for itself in a literal. -/
structure Literal : Prop where
  plain : ∀ s : GoString, (∀ b ∈ s, b ≠ 34 ∧ b ≠ 92 ∧ b ≠ 10) → literal s = s

end

/-- No full name needs an escape. -/
def Inputs.Quoted (inp : Inputs) : Prop :=
  ∀ t ∈ inp.tags ++ inp.all.flatMap EnumVal.vals, ∀ b ∈ t.fullName, b ≠ 34 ∧ b ≠ 92 ∧ b ≠ 10

theorem TagVal.compiled_eq {literal : GoString → GoString} (h : Literal literal) {t : TagVal}
    (ht : ∀ b ∈ t.fullName, b ≠ 34 ∧ b ≠ 92 ∧ b ≠ 10) : t.compiled literal = t := by
  rw [TagVal.compiled, h.plain t.fullName ht]

theorem EnumVal.compiled_eq {literal : GoString → GoString} (h : Literal literal) {ev : EnumVal}
    (hev : ∀ t ∈ ev.vals, ∀ b ∈ t.fullName, b ≠ 34 ∧ b ≠ 92 ∧ b ≠ 10) : ev.compiled literal = ev := by
  have hvals : ev.vals.map (TagVal.compiled literal) = ev.vals :=
    (List.map_congr_left fun t ht => TagVal.compiled_eq h (hev t ht)).trans (List.map_id _)
  rw [EnumVal.compiled, hvals]

theorem Inputs.compiled_eq {literal : GoString → GoString} (h : Literal literal) {inp : Inputs} (hq : inp.Quoted) :
    inp.compiled literal = inp := by
  have hall : ∀ ev ∈ inp.all, ev.compiled literal = ev := fun ev hev =>
    EnumVal.compiled_eq h fun t ht => hq t (List.mem_append_right _ (List.mem_flatMap.mpr ⟨ev, hev, ht⟩))
  have htags : inp.tags.map (TagVal.compiled literal) = inp.tags :=
    (List.map_congr_left fun t ht => TagVal.compiled_eq h (hq t (List.mem_append_left _ ht))).trans (List.map_id _)
  have henums : inp.enums.map (EnumVal.compiled literal) = inp.enums :=
    (List.map_congr_left fun ev hev => hall ev (List.mem_append_left _ hev)).trans (List.map_id _)
  have hmasks : inp.masks.map (EnumVal.compiled literal) = inp.masks :=
    (List.map_congr_left fun ev hev => hall ev (List.mem_append_right _ hev)).trans (List.map_id _)
  rw [Inputs.compiled, htags, henums, hmasks]

/-- The calls of `RegisterValue` or `RegisterTag` in a loop over a map literal. -/
def registrations (vals : List TagVal) : History := vals.map fun t => (t.value, t.fullName)

section

variable (title : Bytes → Bytes)

/-- `New…Enum`, where the loop goes over the values in the given order. -/
def EnumVal.newEnum (ev : EnumVal) (vals : List TagVal) : Enum :=
  (if ev.bitMask then newBitmask else Reg.newEnum).register title (registrations vals)

/-- `DefaultRegistry` while `r` is filled, which may be `r` itself or another registry. -/
def lookupRegistry (isDefault : Bool) (default r : Registry) : Registry := if isDefault then r else default

/-- The second loop of `RegisterGeneratedDefinitions`.  Names of tags are looked up in `DefaultRegistry`. -/
def registerEnums (isDefault : Bool) (default : Registry) : Registry → List (GoString × Enum) → Res ParseErr Registry
  | r, [] => .ok r
  | r, (tagName, enum) :: rest =>
    match (lookupRegistry isDefault default r).parseTag tagName with
    | .error _ => .panic
    | .ok tag => registerEnums isDefault default (r.registerEnum tag enum) rest

def registerTags (r : Registry) (tags : List TagVal) : Registry :=
  tags.foldl (fun r t => r.registerTag title t.value t.fullName) r

/-- `RegisterGeneratedDefinitions`, with the orders of its loops. -/
def registerGeneratedDefinitions (isDefault : Bool) (default r : Registry) (tags : List TagVal)
    (enums : List (GoString × Enum)) : Res ParseErr Registry :=
  registerEnums isDefault default (registerTags title r tags) enums

/-- Orders in which the loops of the generated file may go. -/
structure Inputs.Orders (inp : Inputs) where
  tags : List TagVal
  vals : EnumVal → List TagVal
  enums : List (GoString × EnumVal)
  tags_perm : tags.Perm inp.tags
  vals_perm : ∀ ev, (vals ev).Perm ev.vals
  enums_perm : enums.Perm inp.enumTags

/-- What the file registers, in the given orders. -/
def Inputs.Orders.run {inp : Inputs} (o : inp.Orders) (isDefault : Bool) (default r : Registry) :
    Res ParseErr Registry :=
  registerGeneratedDefinitions title isDefault default r o.tags
    (o.enums.map fun p => (p.1, p.2.newEnum title (o.vals p.2)))

end

/-! ## What is prepared -/

section

variable {title : Bytes → Bytes} {sort : List TagVal → List TagVal} {room : Bool}

/-- An entry of a specification and what is generated from it. -/
def Denotes (title : Bytes → Bytes) (x : Sigma fun _ : GoString => Json) (t : TagVal) : Prop :=
  parseUint32 x.2 = .ok t.value ∧ t.fullName = x.1 ∧ t.name = normalizeName title x.1

/-- The values are those of the entries, in whatever order. -/
structure Lists (title : Bytes → Bytes) (xs : List (Sigma fun _ : GoString => Json)) (vals : List TagVal) : Prop where
  all : ∀ x ∈ xs, ∃ t ∈ vals, Denotes title x t
  only : ∀ t ∈ vals, ∃ x ∈ xs, Denotes title x t

theorem Lists.perm {xs : List (Sigma fun _ : GoString => Json)} {vals vals' : List TagVal}
    (h : Lists title xs vals) (hperm : vals'.Perm vals) : Lists title xs vals' where
  all x hx := by
    obtain ⟨t, ht, hden⟩ := h.all x hx
    exact ⟨t, hperm.mem_iff.mpr ht, hden⟩
  only t ht := h.only t (hperm.mem_iff.mp ht)

theorem Lists.name_eq {xs : List (Sigma fun _ : GoString => Json)} {vals : List TagVal} (h : Lists title xs vals)
    {t : TagVal} (ht : t ∈ vals) : t.name = normalizeName title t.fullName := by
  obtain ⟨x, -, -, hfull, hname⟩ := h.only t ht
  rw [hname, hfull]

theorem tagVals_eq_ok {x : Sigma fun _ : GoString => Json} {xs : List (Sigma fun _ : GoString => Json)}
    {vals : List TagVal} (h : tagVals title (x :: xs) = .ok vals) :
    ∃ i rest, parseUint32 x.2 = .ok i ∧ tagVals title xs = .ok rest ∧
      vals = ⟨x.1, normalizeName title x.1, i⟩ :: rest := by
  rw [tagVals] at h
  cases hi : parseUint32 x.2 with
  | error e => simp [hi] at h
  | ok i =>
    cases hrest : tagVals title xs with
    | error e => simp [hi, hrest] at h
    | ok rest =>
      simp only [hi, hrest, Except.ok.injEq] at h
      exact ⟨i, rest, rfl, rfl, h.symm⟩

theorem tagVals_of_ok {x : Sigma fun _ : GoString => Json} {xs : List (Sigma fun _ : GoString => Json)}
    {i : BitVec 32} {rest : List TagVal} (hi : parseUint32 x.2 = .ok i) (hrest : tagVals title xs = .ok rest) :
    tagVals title (x :: xs) = .ok (⟨x.1, normalizeName title x.1, i⟩ :: rest) := by
  simp only [tagVals, hi, hrest]

theorem tagVals_lists {xs : List (Sigma fun _ : GoString => Json)} {vals : List TagVal}
    (h : tagVals title xs = .ok vals) : Lists title xs vals := by
  induction xs generalizing vals with
  | nil =>
    cases h
    exact ⟨nofun, nofun⟩
  | cons x xs ih =>
    obtain ⟨i, rest, hi, hrest, rfl⟩ := tagVals_eq_ok h
    obtain ⟨hall, honly⟩ := ih hrest
    constructor
    · intro y hy
      rcases List.mem_cons.mp hy with rfl | hy
      · exact ⟨_, List.mem_cons_self .., hi, rfl, rfl⟩
      · obtain ⟨t, ht, hden⟩ := hall y hy
        exact ⟨t, List.mem_cons_of_mem _ ht, hden⟩
    · intro t ht
      rcases List.mem_cons.mp ht with rfl | ht
      · exact ⟨x, List.mem_cons_self .., hi, rfl, rfl⟩
      · obtain ⟨y, hy, hden⟩ := honly t ht
        exact ⟨y, List.mem_cons_of_mem _ hy, hden⟩

/-- An enumeration or a mask and what is generated from it. -/
structure Prepared (title : Bytes → Bytes) (bitMask : Bool) (v : EnumDef) (ev : EnumVal) : Prop where
  bitMask : ev.bitMask = bitMask
  tags : ev.tags = v.tags.map (normalizeName title)
  vals : Lists title v.values.entries ev.vals

theorem toEnumVal_prepared (hsort : Sorts sort) {v : EnumDef} {ev : EnumVal} (h : toEnumVal title sort room v = .ok ev)
    (bitMask : Bool) : Prepared title bitMask v { ev with bitMask := bitMask } := by
  rw [toEnumVal] at h
  split at h
  · cases h
  · split at h
    · cases h
    · rename_i vals hvals
      cases h
      exact ⟨rfl, rfl, (tagVals_lists hvals).perm (hsort.perm vals)⟩

theorem toEnumVals_prepared (hsort : Sorts sort) {wrap : GoString → InvalidValue → PrepareErr} {bitMask : Bool}
    {vs : List EnumDef} {evs : List EnumVal} (h : toEnumVals title sort room wrap bitMask vs = .ok evs) :
    List.Forall₂ (Prepared title bitMask) vs evs := by
  induction vs generalizing evs with
  | nil =>
    cases h
    exact .nil
  | cons v vs ih =>
    rw [toEnumVals] at h
    split at h
    · cases h
    · cases h
    · rename_i ev hev
      obtain ⟨rest, hrest, hcons⟩ := Res.bind_eq_ok.mp h
      cases hcons
      exact .cons (toEnumVal_prepared hsort hev bitMask) (ih hrest)

theorem prepareInput_eq_ok {s : Specifications} {inp : Inputs} (h : prepareInput title sort room s = .ok inp) :
    (∃ tags, tagVals title s.tags.entries = .ok tags ∧ inp.tags = sort tags) ∧
    toEnumVals title sort room .enum false s.enums = .ok inp.enums ∧
    toEnumVals title sort room .mask true s.masks = .ok inp.masks := by
  rw [prepareInput] at h
  split at h
  · cases h
  · rename_i tags htags
    obtain ⟨enums, henums, h⟩ := Res.bind_eq_ok.mp h
    obtain ⟨masks, hmasks, h⟩ := Res.bind_eq_ok.mp h
    cases h
    exact ⟨⟨tags, htags, rfl⟩, henums, hmasks⟩

/-! ## The order of the maps -/

theorem tagVals_perm {xs xs' : List (Sigma fun _ : GoString => Json)} (hperm : xs.Perm xs') {vals : List TagVal}
    (h : tagVals title xs = .ok vals) : ∃ vals', tagVals title xs' = .ok vals' ∧ vals'.Perm vals := by
  induction hperm generalizing vals with
  | nil => exact ⟨vals, h, .refl _⟩
  | cons x _ ih =>
    obtain ⟨i, rest, hi, hrest, rfl⟩ := tagVals_eq_ok h
    obtain ⟨rest', hrest', hperm⟩ := ih hrest
    exact ⟨_, tagVals_of_ok hi hrest', hperm.cons _⟩
  | swap x y xs =>
    obtain ⟨i, tail, hi, htail, rfl⟩ := tagVals_eq_ok h
    obtain ⟨j, rest, hj, hrest, rfl⟩ := tagVals_eq_ok htail
    exact ⟨_, tagVals_of_ok hj (tagVals_of_ok hi hrest), .swap ..⟩
  | trans _ _ ih₁ ih₂ =>
    obtain ⟨vals₁, h₁, hperm₁⟩ := ih₁ h
    obtain ⟨vals₂, h₂, hperm₂⟩ := ih₂ h₁
    exact ⟨vals₂, h₂, hperm₂.trans hperm₁⟩

/-- Distinct values have one order. -/
theorem Sorts.eq_of_perm (hsort : Sorts sort) {vals vals' : List TagVal} (hperm : vals'.Perm vals)
    (hnodup : ((sort vals).map TagVal.value).Nodup) : sort vals' = sort vals := by
  have hall : (sort vals').Perm (sort vals) := (hsort.perm vals').trans (hperm.trans (hsort.perm vals).symm)
  refine List.Perm.eq_of_pairwise ?_ (hsort.ascending vals') (hsort.ascending vals) hall
  intro a b ha hb hab hba
  exact List.inj_on_of_nodup_map hnodup (hall.mem_iff.mp ha) hb (BitVec.eq_of_toNat_eq (Nat.le_antisymm hab hba))

/-- The same definition, with the map of its values in another order. -/
structure EnumDef.Reordered (v v' : EnumDef) : Prop where
  name : v'.name = v.name
  comment : v'.comment = v.comment
  tags : v'.tags = v.tags
  values : v.values.entries.Perm v'.values.entries

theorem toEnumVals_reordered (hsort : Sorts sort) {wrap : GoString → InvalidValue → PrepareErr} {bitMask : Bool}
    {vs vs' : List EnumDef} (hvs : List.Forall₂ EnumDef.Reordered vs vs') {evs : List EnumVal}
    (h : toEnumVals title sort room wrap bitMask vs = .ok evs) (hnodup : ∀ ev ∈ evs, (ev.vals.map TagVal.value).Nodup) :
    toEnumVals title sort room wrap bitMask vs' = .ok evs := by
  induction hvs generalizing evs with
  | nil => exact h
  | @cons v v' vs vs' hv _ ih =>
    rw [toEnumVals] at h
    split at h
    · cases h
    · cases h
    · rename_i ev hev
      obtain ⟨rest, hrest, hcons⟩ := Res.bind_eq_ok.mp h
      cases hcons
      have hmore := ih hrest fun x hx => hnodup x (List.mem_cons_of_mem _ hx)
      have hfirst : toEnumVal title sort room v' = .ok ev := by
        rw [toEnumVal] at hev ⊢
        rw [hv.name, hv.comment, hv.tags]
        split at hev
        · cases hev
        · split at hev
          · cases hev
          · rename_i vals hvals
            cases hev
            obtain ⟨vals', hvals', hperm⟩ := tagVals_perm hv.values hvals
            have hsorted := hsort.eq_of_perm hperm (hnodup _ (List.mem_cons_self ..))
            simp only [hvals', hsorted]
      rw [toEnumVals, hfirst]
      simp only [hmore]
      rfl

/-- If a specification is accepted, and what is generated from it compiles, then the same specification
    with its maps in any other order is accepted, with the same result. -/
theorem prepareInput_stable (hsort : Sorts sort) {s s' : Specifications} (htags : s.tags.entries.Perm s'.tags.entries)
    (henums : List.Forall₂ EnumDef.Reordered s.enums s'.enums)
    (hmasks : List.Forall₂ EnumDef.Reordered s.masks s'.masks) (hpackage : s'.package = s.package) {inp : Inputs}
    (h : prepareInput title sort room s = .ok inp) (hcompiles : inp.Compiles) :
    prepareInput title sort room s' = .ok inp := by
  rw [prepareInput] at h ⊢
  split at h
  · cases h
  · rename_i tags hvals
    obtain ⟨enums, he, h⟩ := Res.bind_eq_ok.mp h
    obtain ⟨masks, hm, h⟩ := Res.bind_eq_ok.mp h
    cases h
    obtain ⟨vals', hvals', hperm⟩ := tagVals_perm htags hvals
    rw [hvals', hpackage]
    simp only [toEnumVals_reordered hsort henums he fun ev hev => hcompiles.values ev (List.mem_append_left _ hev),
      toEnumVals_reordered hsort hmasks hm fun ev hev => hcompiles.values ev (List.mem_append_right _ hev),
      hsort.eq_of_perm hperm hcompiles.tags]
    rfl

end

/-- The sort that `prepareInput` asks for. -/
def byValue (vals : List TagVal) : List TagVal := vals.insertionSort fun a b => a.value.toNat ≤ b.value.toNat

theorem byValue_sorts : Sorts byValue where
  perm vals := List.perm_insertionSort _ vals
  ascending vals := by
    have : Std.Total fun a b : TagVal => a.value.toNat ≤ b.value.toNat := ⟨fun a b => Nat.le_total ..⟩
    have : IsTrans TagVal fun a b => a.value.toNat ≤ b.value.toNat := ⟨fun _ _ _ => Nat.le_trans⟩
    exact List.pairwise_insertionSort _ vals

/-- A specification of one enumeration and one mask, with one number of each form. -/
def keySpecifications (swap : Bool) : Specifications where
  enums :=
    [{  name := lit "Key State"
        comment := lit "States"
        values :=
          if swap then (AList.singleton (lit "Live") (.number 1)).insert (lit "Gone") (.string (lit "0x00000002"))
          else (AList.singleton (lit "Gone") (.string (lit "0x00000002"))).insert (lit "Live") (.number 1)
        tags := [lit "Key State"] }]
  masks :=
    [{  name := lit "Key Use"
        comment := lit "Uses"
        values := AList.singleton (lit "Wrap Key") (.string (lit "4"))
        tags := [lit "Key Use"] }]
  tags :=
    if swap then (AList.singleton (lit "Key State") (.string (lit "0x540001"))).insert (lit "Key Use") (.number 5505026)
    else (AList.singleton (lit "Key Use") (.number 5505026)).insert (lit "Key State") (.string (lit "0x540001"))
  package := lit "keys"

def keyInputs : Inputs where
  tags := [⟨lit "Key State", lit "KeyState", 0x540001⟩, ⟨lit "Key Use", lit "KeyUse", 0x540002⟩]
  package := lit "keys"
  imports := [lit "github.com/gemalto/kmip-go/ttlv"]
  ttlvPackage := lit "ttlv."
  enums :=
    [{  name := lit "Key State"
        comment := lit "States"
        var := lit "k"
        typeName := lit "KeyState"
        vals := [⟨lit "Live", lit "Live", 1⟩, ⟨lit "Gone", lit "Gone", 2⟩]
        tags := [lit "KeyState"]
        bitMask := false }]
  masks :=
    [{  name := lit "Key Use"
        comment := lit "Uses"
        var := lit "k"
        typeName := lit "KeyUse"
        vals := [⟨lit "Wrap Key", lit "WrapKey", 4⟩]
        tags := [lit "KeyUse"]
        bitMask := true }]

theorem prepareInput_keys : prepareInput id byValue false (keySpecifications false) = .ok keyInputs :=
  Res.toOption_eq_some.mp (by decide +kernel)

theorem keyInputs_compiles : keyInputs.Compiles where
  identifiers := by decide
  tags := by decide
  values := by
    intro ev hev
    rcases List.mem_cons.mp hev with rfl | hev
    · decide
    · rw [List.mem_singleton.mp hev]
      decide
  enums := by decide

/-- The maps in another order. -/
theorem prepareInput_stable_keys :
    (keySpecifications false).tags.entries ≠ (keySpecifications true).tags.entries ∧
    prepareInput id byValue false (keySpecifications true) = .ok keyInputs := by
  have htags : (keySpecifications false).tags.entries.Perm (keySpecifications true).tags.entries := .swap ..
  have henums : List.Forall₂ EnumDef.Reordered (keySpecifications false).enums (keySpecifications true).enums :=
    .cons ⟨rfl, rfl, rfl, .swap ..⟩ .nil
  have hmasks : List.Forall₂ EnumDef.Reordered (keySpecifications false).masks (keySpecifications true).masks :=
    .cons ⟨rfl, rfl, rfl, .refl _⟩ .nil
  exact ⟨nofun, prepareInput_stable byValue_sorts htags henums hmasks rfl prepareInput_keys keyInputs_compiles⟩

/-! ## What is registered -/

section

variable {title : Bytes → Bytes}

/-- Values to register, with no name and no value twice. -/
structure Distinct (title : Bytes → Bytes) (vals : List TagVal) : Prop where
  values : (vals.map TagVal.value).Nodup
  names : (vals.map TagVal.name).Nodup
  name_eq : ∀ t ∈ vals, t.name = normalizeName title t.fullName

theorem Distinct.perm {vals vals' : List TagVal} (h : Distinct title vals) (hperm : vals'.Perm vals) :
    Distinct title vals' where
  values := (hperm.map _).nodup_iff.mpr h.values
  names := (hperm.map _).nodup_iff.mpr h.names
  name_eq t ht := h.name_eq t (hperm.mem_iff.mp ht)

theorem Distinct.eq_of_name {vals : List TagVal} (h : Distinct title vals) {t u : TagVal} (ht : t ∈ vals)
    (hu : u ∈ vals) (hname : normalizeName title t.fullName = normalizeName title u.fullName) : t = u := by
  rw [← h.name_eq t ht, ← h.name_eq u hu] at hname
  exact List.inj_on_of_nodup_map h.names ht hu hname

theorem mem_registrations {vals : List TagVal} {r : BitVec 32 × GoString} :
    r ∈ registrations vals ↔ ∃ t ∈ vals, (t.value, t.fullName) = r := by
  rw [registrations, List.mem_map]

theorem Distinct.consistent {vals : List TagVal} (h : Distinct title vals) :
    ∀ r ∈ registrations vals, ∀ s ∈ registrations vals,
      normalizeName title r.2 = normalizeName title s.2 → r.1 = s.1 := by
  intro r hr s hs hname
  obtain ⟨t, ht, rfl⟩ := mem_registrations.mp hr
  obtain ⟨u, hu, rfl⟩ := mem_registrations.mp hs
  rw [h.eq_of_name ht hu hname]

/-- Each name denotes its value, and each value has its name. -/
theorem Distinct.register {vals : List TagVal} (h : Distinct title vals) (e : Enum) {t : TagVal} (ht : t ∈ vals) :
    (e.register title (registrations vals)).nameToValue.lookup t.name = some t.value ∧
      (e.register title (registrations vals)).name t.value = some t.name := by
  have hmem : (t.value, t.fullName) ∈ registrations vals := mem_registrations.mpr ⟨t, ht, rfl⟩
  have hvalues : ((registrations vals).map Prod.fst).Nodup := by
    rw [registrations, List.map_map]
    exact h.values
  rw [h.name_eq t ht]
  exact ⟨nameToValue_register title e h.consistent _ hmem, name_register_of_nodup title e hvalues _ hmem⟩

/-- In a table of names to which each registration adds one, a name that is not added denotes what it did
    before. -/
theorem lookup_register_other (table : Enum → AList fun _ : GoString => BitVec 32)
    (key : BitVec 32 × GoString → GoString)
    (hstep : ∀ e r, table (e.registerValue title r.1 r.2) = (table e).insert (key r) r.1) (e : Enum) {hist : History}
    {s : GoString} (hs : ∀ r ∈ hist, key r ≠ s) : (table (e.register title hist)).lookup s = (table e).lookup s := by
  induction hist using List.reverseRecOn with
  | nil => rfl
  | append_singleton hist r ih =>
    rw [register_snoc, hstep, AList.lookup_insert_ne (hs r (by simp)).symm]
    exact ih fun q hq => hs q (by simp [hq])

theorem nameToValue_other (e : Enum) {hist : History} {s : GoString} (hs : ∀ r ∈ hist, normalizeName title r.2 ≠ s) :
    (e.register title hist).nameToValue.lookup s = e.nameToValue.lookup s :=
  lookup_register_other Enum.nameToValue (fun r => normalizeName title r.2) (fun _ _ => rfl) e hs

theorem canonicalNamesToValue_other (e : Enum) {hist : History} {s : GoString} (hs : ∀ r ∈ hist, r.2 ≠ s) :
    (e.register title hist).canonicalNamesToValue.lookup s = e.canonicalNamesToValue.lookup s :=
  lookup_register_other Enum.canonicalNamesToValue Prod.snd (fun _ _ => rfl) e hs

theorem bitMask_register (e : Enum) (hist : History) : (e.register title hist).bitMask = e.bitMask := by
  induction hist using List.reverseRecOn with
  | nil => rfl
  | append_singleton hist r ih =>
    rw [register_snoc]
    exact ih

/-- What a text denotes does not depend on the order of registrations. -/
theorem Distinct.value_perm {vals vals' : List TagVal} (h : Distinct title vals) (hperm : vals'.Perm vals) (e : Enum)
    (s : GoString) :
    (e.register title (registrations vals')).value s = (e.register title (registrations vals)).value s := by
  have h' := h.perm hperm
  have hregs : (registrations vals').Perm (registrations vals) := hperm.map _
  have hnames : (e.register title (registrations vals')).nameToValue.lookup s =
      (e.register title (registrations vals)).nameToValue.lookup s := by
    by_cases hs : ∃ t ∈ vals, t.name = s
    · obtain ⟨t, ht, rfl⟩ := hs
      rw [(h.register e ht).1, (h'.register e (hperm.mem_iff.mpr ht)).1]
    · have hother : ∀ r ∈ registrations vals, normalizeName title r.2 ≠ s := by
        intro r hr hname
        obtain ⟨t, ht, rfl⟩ := mem_registrations.mp hr
        exact hs ⟨t, ht, (h.name_eq t ht).trans hname⟩
      rw [nameToValue_other e hother, nameToValue_other e fun r hr => hother r (hregs.mem_iff.mp hr)]
  have hcanonical : (e.register title (registrations vals')).canonicalNamesToValue.lookup s =
      (e.register title (registrations vals)).canonicalNamesToValue.lookup s := by
    have hdistinct : ∀ {us : List TagVal}, Distinct title us → ∀ r ∈ registrations us, ∀ q ∈ registrations us,
        r.2 = q.2 → r.1 = q.1 := fun hus r hr q hq hname => hus.consistent r hr q hq (by rw [hname])
    by_cases hs : ∃ r ∈ registrations vals, r.2 = s
    · obtain ⟨r, hr, rfl⟩ := hs
      rw [canonicalNamesToValue_register title e (hdistinct h) r hr,
        canonicalNamesToValue_register title e (hdistinct h') r (hregs.mem_iff.mpr hr)]
    · have hother : ∀ r ∈ registrations vals, r.2 ≠ s := fun r hr hname => hs ⟨r, hr, hname⟩
      rw [canonicalNamesToValue_other e hother,
        canonicalNamesToValue_other e fun r hr => hother r (hregs.mem_iff.mp hr)]
  rw [Enum.value, Enum.value, hnames, hcanonical]

theorem registerTags_eq (r : Registry) (tags : List TagVal) :
    registerTags title r tags = { r with tags := r.tags.register title (registrations tags) } := by
  induction tags generalizing r with
  | nil => rfl
  | cons t tags ih =>
    rw [registerTags, List.foldl_cons, ← registerTags, ih]
    rfl

theorem parseTag_congr {r r' : Registry} {s : GoString} (h : r.tags.value s = r'.tags.value s) :
    r.parseTag s = r'.parseTag s := by
  rw [Registry.parseTag, Registry.parseTag, parseTag, parseTag, parseHexOrName, parseHexOrName, Option.bind_some,
    Option.bind_some, h]

end

/-! ## The tables of tags -/

section

variable {isDefault : Bool} {default : Registry}

theorem parseTag_registerEnum (r : Registry) (tag : Tag) (e : Enum) (s : GoString) :
    (lookupRegistry isDefault default (r.registerEnum tag e)).parseTag s =
      (lookupRegistry isDefault default r).parseTag s := by
  cases isDefault <;> rfl

/-- A name that is not a tag's ends the program. -/
theorem registerEnums_panic {enums : List (GoString × Enum)} {r : Registry}
    (h : ∃ p ∈ enums, ∀ tag, (lookupRegistry isDefault default r).parseTag p.1 ≠ .ok tag) :
    registerEnums isDefault default r enums = .panic := by
  induction enums generalizing r with
  | nil =>
    obtain ⟨p, hp, -⟩ := h
    cases hp
  | cons q enums ih =>
    rw [registerEnums]
    cases hq : (lookupRegistry isDefault default r).parseTag q.1 with
    | error e => rfl
    | ok tag =>
      obtain ⟨p, hp, hbad⟩ := h
      rcases List.mem_cons.mp hp with rfl | hp
      · exact absurd hq (hbad tag)
      · exact ih ⟨p, hp, fun tag' => by rw [parseTag_registerEnum]; exact hbad tag'⟩

/-- Where different names are different tags, each tag gets its table, and no other tag changes. -/
theorem registerEnums_ok {enums : List (GoString × Enum)} {r : Registry} (hnodup : (enums.map Prod.fst).Nodup)
    (hresolve : ∀ p ∈ enums, ∃ tag, (lookupRegistry isDefault default r).parseTag p.1 = .ok tag)
    (hdistinct : ∀ p ∈ enums, ∀ q ∈ enums, ∀ tag, (lookupRegistry isDefault default r).parseTag p.1 = .ok tag →
      (lookupRegistry isDefault default r).parseTag q.1 = .ok tag → p.1 = q.1) :
    ∃ r', registerEnums isDefault default r enums = .ok r' ∧ r'.tags = r.tags ∧ r'.types = r.types ∧
      (∀ p ∈ enums, ∀ tag, (lookupRegistry isDefault default r).parseTag p.1 = .ok tag →
        r'.enumForTag tag = some p.2) ∧
      ∀ tag, (∀ p ∈ enums, (lookupRegistry isDefault default r).parseTag p.1 ≠ .ok tag) →
        r'.enumForTag tag = r.enumForTag tag := by
  induction enums generalizing r with
  | nil => exact ⟨r, rfl, rfl, rfl, nofun, fun _ _ => rfl⟩
  | cons q enums ih =>
    obtain ⟨tag, htag⟩ := hresolve q (List.mem_cons_self ..)
    rw [List.map_cons, List.nodup_cons] at hnodup
    obtain ⟨hfresh, hnodup⟩ := hnodup
    have hlookup : ∀ name, (lookupRegistry isDefault default (r.registerEnum tag q.2)).parseTag name =
        (lookupRegistry isDefault default r).parseTag name := parseTag_registerEnum r tag q.2
    obtain ⟨r', hrun, htags, htypes, hgets, hkeeps⟩ := ih (r := r.registerEnum tag q.2) hnodup
      (fun p hp => by rw [hlookup]; exact hresolve p (List.mem_cons_of_mem q hp))
      (fun p hp p' hp' t => by
        rw [hlookup, hlookup]
        exact hdistinct p (List.mem_cons_of_mem q hp) p' (List.mem_cons_of_mem q hp') t)
    simp only [hlookup] at hgets hkeeps
    refine ⟨r', ?_, htags, htypes, ?_, ?_⟩
    · rw [registerEnums, htag]
      exact hrun
    · intro p hp t ht
      rcases List.mem_cons.mp hp with rfl | hp
      · -- no later name is this tag
        rw [htag] at ht
        cases ht
        rw [hkeeps tag fun p' hp' hsame => ?_]
        · exact AList.lookup_insert _
        · have hname := hdistinct p (List.mem_cons_self ..) p' (List.mem_cons_of_mem _ hp') tag htag hsame
          exact hfresh (hname ▸ List.mem_map_of_mem hp')
      · exact hgets p hp t ht
    · intro t ht
      rw [hkeeps t fun p hp => ht p (List.mem_cons_of_mem q hp)]
      have hne : t ≠ tag := by
        rintro rfl
        exact ht q (List.mem_cons_self ..) htag
      exact AList.lookup_insert_ne hne

end

/-! ## The specification -/

section

variable {title : Bytes → Bytes} {sort : List TagVal → List TagVal} {room : Bool}

/-- Each constant is declared once, so each name is there once. -/
theorem names_nodup {lead : GoString} {vals : List TagVal} (h : (vals.map fun t => lead ++ t.name).Nodup) :
    (vals.map TagVal.name).Nodup := by
  have hmap : (vals.map fun t => lead ++ t.name) = (vals.map TagVal.name).map (lead ++ ·) := by
    rw [List.map_map]
    rfl
  rw [hmap] at h
  exact h.of_map

theorem Inputs.Compiles.distinct_tags {inp : Inputs} (h : inp.Compiles)
    {xs : List (Sigma fun _ : GoString => Json)} (hlists : Lists title xs inp.tags) : Distinct title inp.tags where
  values := h.tags
  names := names_nodup (List.nodup_append.mp (List.nodup_append.mp h.identifiers).1).1
  name_eq _ ht := hlists.name_eq ht

theorem Inputs.Compiles.distinct_vals {inp : Inputs} (h : inp.Compiles) {ev : EnumVal} (hev : ev ∈ inp.all)
    {xs : List (Sigma fun _ : GoString => Json)} (hlists : Lists title xs ev.vals) : Distinct title ev.vals where
  values := h.values ev hev
  names := by
    have hall := (List.nodup_append.mp (List.nodup_append.mp h.identifiers).1).2.1
    have hown := (List.nodup_flatMap.mp hall).1 ev hev
    rw [EnumVal.identifiers, List.cons_append, List.nodup_cons] at hown
    exact names_nodup (List.nodup_append.mp hown.2).1
  name_eq _ ht := hlists.name_eq ht

/-- The table of a type answers as the definition says. -/
structure Answers (title : Bytes → Bytes) (v : EnumDef) (e : Enum) : Prop where
  value : ∀ x ∈ v.values.entries, ∃ i, parseUint32 x.2 = .ok i ∧ e.value (normalizeName title x.1) = some i ∧
    e.name i = some (normalizeName title x.1)
  values : ∀ i, i ∈ e.values ↔ ∃ x ∈ v.values.entries, parseUint32 x.2 = .ok i

theorem newEnum_answers {inp : Inputs} (hcompiles : inp.Compiles) {bitMask : Bool} {v : EnumDef} {ev : EnumVal}
    (hev : ev ∈ inp.all) (hprep : Prepared title bitMask v ev) {vals : List TagVal} (hperm : vals.Perm ev.vals) :
    Answers title v (ev.newEnum title vals) ∧ (ev.newEnum title vals).bitMask = bitMask := by
  have hdistinct := (hcompiles.distinct_vals hev hprep.vals).perm hperm
  have hlists := hprep.vals.perm hperm
  have hempty : ∀ i, (if ev.bitMask then newBitmask else Reg.newEnum).name i = none := by
    intro i
    cases ev.bitMask <;> exact AList.lookup_empty i
  refine ⟨⟨fun x hx => ?_, fun i => ?_⟩, ?_⟩
  · obtain ⟨t, ht, hi, -, hname⟩ := hlists.all x hx
    obtain ⟨hvalue, hback⟩ := hdistinct.register (if ev.bitMask then newBitmask else Reg.newEnum) ht
    rw [hname] at hvalue hback
    refine ⟨t.value, hi, ?_, hback⟩
    rw [EnumVal.newEnum, Enum.value, hvalue]
  · rw [EnumVal.newEnum, mem_values_register title hempty]
    constructor
    · rintro ⟨r, hr, rfl⟩
      obtain ⟨t, ht, rfl⟩ := mem_registrations.mp hr
      obtain ⟨x, hx, hi, -⟩ := hlists.only t ht
      exact ⟨x, hx, hi⟩
    · rintro ⟨x, hx, hi⟩
      obtain ⟨t, ht, hi', -⟩ := hlists.all x hx
      rw [hi] at hi'
      cases hi'
      exact ⟨_, mem_registrations.mpr ⟨t, ht, rfl⟩, rfl⟩
  · rw [EnumVal.newEnum, bitMask_register, ← hprep.bitMask]
    cases ev.bitMask <;> rfl

/-- The tag that a name of the literal `enums` stands for, when the tags are registered. -/
def Inputs.Resolves (inp : Inputs) (title : Bytes → Bytes) (isDefault : Bool) (default r : Registry) (name : GoString)
    (tag : Tag) : Prop :=
  (lookupRegistry isDefault default (registerTags title r inp.tags)).parseTag name = .ok tag

theorem Inputs.Resolves.unique {inp : Inputs} {isDefault : Bool} {default r : Registry} {name : GoString}
    {tag tag' : Tag} (h : inp.Resolves title isDefault default r name tag)
    (h' : inp.Resolves title isDefault default r name tag') :
    tag = tag' := Except.ok.inj (h.symm.trans h')

theorem resolves_iff {inp : Inputs} (hdistinct : Distinct title inp.tags) {tags : List TagVal}
    (hperm : tags.Perm inp.tags) {isDefault : Bool} {default r : Registry} {name : GoString} {tag : Tag} :
    inp.Resolves title isDefault default r name tag ↔
      (lookupRegistry isDefault default (registerTags title r tags)).parseTag name = .ok tag := by
  rw [Inputs.Resolves]
  cases isDefault with
  | false => rfl
  | true =>
    have hsame : (registerTags title r inp.tags).parseTag name = (registerTags title r tags).parseTag name := by
      apply parseTag_congr
      rw [registerTags_eq, registerTags_eq]
      exact (hdistinct.value_perm hperm r.tags name).symm
    show (registerTags title r inp.tags).parseTag name = _ ↔ (registerTags title r tags).parseTag name = _
    rw [hsame]

/-- What the registry has for a definition: each of its tags has a table that answers as the definition
    says, of the right kind. -/
def Registered (title : Bytes → Bytes) (resolves : GoString → Tag → Prop) (r : Registry) (bitMask : Bool)
    (v : EnumDef) : Prop :=
  ∀ n ∈ v.tags, ∃ tag e, resolves (normalizeName title n) tag ∧ r.enumForTag tag = some e ∧ e.bitMask = bitMask ∧
    Answers title v e

theorem registered_of_prepared {inp : Inputs} (hcompiles : inp.Compiles) (o : inp.Orders)
    {resolves : GoString → Tag → Prop} {r : Registry} (hresolve : ∀ p ∈ inp.enumTags, ∃ tag, resolves p.1 tag)
    (hgets : ∀ p ∈ inp.enumTags, ∀ tag, resolves p.1 tag → r.enumForTag tag = some (p.2.newEnum title (o.vals p.2)))
    {bitMask : Bool} {vs : List EnumDef} {evs : List EnumVal} (hprep : List.Forall₂ (Prepared title bitMask) vs evs)
    (hevs : ∀ ev ∈ evs, ev ∈ inp.all) : ∀ v ∈ vs, Registered title resolves r bitMask v := by
  induction hprep with
  | nil => exact nofun
  | @cons v ev vs evs hv _ ih =>
    intro w hw
    rcases List.mem_cons.mp hw with rfl | hw
    · intro n hn
      have hev := hevs ev (List.mem_cons_self ..)
      have hmem : (normalizeName title n, ev) ∈ inp.enumTags := by
        refine List.mem_flatMap.mpr ⟨ev, hev, List.mem_map.mpr ⟨normalizeName title n, ?_, rfl⟩⟩
        rw [hv.tags]
        exact List.mem_map_of_mem hn
      obtain ⟨tag, htag⟩ := hresolve _ hmem
      obtain ⟨hanswers, hmask⟩ := newEnum_answers hcompiles hev hv (o.vals_perm ev)
      exact ⟨tag, _, htag, hgets _ hmem tag htag, hmask, hanswers⟩
    · exact ih (fun x hx => hevs x (List.mem_cons_of_mem ev hx)) w hw

/-! ## The runs of the generated file -/

section

variable {inp : Inputs} (o : inp.Orders) {isDefault : Bool} {default r : Registry}

/-- An entry of the literal `enums`, in the order of the loop. -/
theorem Inputs.Orders.mem_enums {q : GoString × Enum} :
    (q ∈ o.enums.map fun p => (p.1, p.2.newEnum title (o.vals p.2))) ↔
      ∃ p ∈ inp.enumTags, (p.1, p.2.newEnum title (o.vals p.2)) = q := by
  simp only [List.mem_map, o.enums_perm.mem_iff]

theorem Inputs.Orders.run_panic (hdistinct : Distinct title inp.tags) {p : GoString × EnumVal}
    (hp : p ∈ inp.enumTags) (hbad : ∀ tag, ¬ inp.Resolves title isDefault default r p.1 tag) :
    o.run title isDefault default r = .panic :=
  registerEnums_panic ⟨_, o.mem_enums.mpr ⟨p, hp, rfl⟩, fun tag htag =>
    hbad tag ((resolves_iff hdistinct o.tags_perm).mpr htag)⟩

/-- The tags are registered, and each tag of an enumeration or mask gets its table. -/
theorem Inputs.Orders.run_ok (hdistinct : Distinct title inp.tags) (hnodup : (inp.enumTags.map Prod.fst).Nodup)
    (hresolve : ∀ p ∈ inp.enumTags, ∃ tag, inp.Resolves title isDefault default r p.1 tag)
    (hsingle : ∀ p ∈ inp.enumTags, ∀ q ∈ inp.enumTags, ∀ tag, inp.Resolves title isDefault default r p.1 tag →
      inp.Resolves title isDefault default r q.1 tag → p.1 = q.1) :
    ∃ r', o.run title isDefault default r = .ok r' ∧ r'.tags = r.tags.register title (registrations o.tags) ∧
      r'.types = r.types ∧
      (∀ p ∈ inp.enumTags, ∀ tag, inp.Resolves title isDefault default r p.1 tag →
        r'.enumForTag tag = some (p.2.newEnum title (o.vals p.2))) ∧
      ∀ tag, (∀ p ∈ inp.enumTags, ¬ inp.Resolves title isDefault default r p.1 tag) →
        r'.enumForTag tag = r.enumForTag tag := by
  have hresolves : ∀ name tag, inp.Resolves title isDefault default r name tag ↔
      (lookupRegistry isDefault default (registerTags title r o.tags)).parseTag name = .ok tag := fun _ _ =>
    resolves_iff hdistinct o.tags_perm
  have hnames : ((o.enums.map fun p => (p.1, p.2.newEnum title (o.vals p.2))).map Prod.fst).Nodup := by
    rw [List.map_map]
    exact (o.enums_perm.map _).nodup_iff.mpr hnodup
  simp only [hresolves] at hresolve hsingle ⊢
  obtain ⟨r', hrun, htags, htypes, hgets, hkeeps⟩ := registerEnums_ok hnames
    (fun q hq => by
      obtain ⟨p, hp, rfl⟩ := o.mem_enums.mp hq
      exact hresolve p hp)
    (fun q hq q' hq' => by
      obtain ⟨p, hp, rfl⟩ := o.mem_enums.mp hq
      obtain ⟨p', hp', rfl⟩ := o.mem_enums.mp hq'
      exact hsingle p hp p' hp')
  refine ⟨r', hrun, ?_, ?_, fun p hp => hgets _ (o.mem_enums.mpr ⟨p, hp, rfl⟩), fun tag htag => ?_⟩
  · rw [htags, registerTags_eq]
  · rw [htypes, registerTags_eq]
  · rw [hkeeps tag fun q hq => ?_, registerTags_eq]
    · rfl
    · obtain ⟨p, hp, rfl⟩ := o.mem_enums.mp hq
      exact htag p hp

end

/-- A registered tag has its name, and the name its tag. -/
theorem Distinct.parseTag_formatTag {tags : List TagVal} (h : Distinct title tags) {e : Enum} {r : Registry}
    (hr : r.tags = e.register title (registrations tags)) {t : TagVal} (ht : t ∈ tags)
    (hhex : hasPrefix t.name (lit "0x") = false) : r.parseTag t.name = .ok t.value ∧ r.formatTag t.value = t.name := by
  obtain ⟨hvalue, hname⟩ := h.register e ht
  constructor
  · rw [Registry.parseTag, parseTag, parseHexOrName_of_not_hex hhex, hr, Option.bind_some, Enum.value, hvalue]
    rfl
  · rw [Registry.formatTag, formatTag, formatOr, hr, Option.bind_some, hname]

/-- If the specification is accepted and the generated file compiles, and no full name needs an escape, then
    for every order of its loops: it panics if one of the names of tags is unknown.  If all of them are
    known, and different ones are different tags, the registry is filled: each tag has its name and each
    name its tag, and each tag of an enumeration or mask has a table with exactly its values, under their
    names.  Other tags keep their tables. -/
theorem generated_registers (hsort : Sorts sort) {literal : GoString → GoString} (hliteral : Literal literal)
    {s : Specifications} {inp : Inputs} (hprep : prepareInput title sort room s = .ok inp)
    (hcompiles : inp.Compiles) (hquoted : inp.Quoted)
    (hhex : ∀ t ∈ inp.tags, hasPrefix t.name (lit "0x") = false) (o : (inp.compiled literal).Orders)
    (isDefault : Bool) (default r : Registry) :
    ((∃ p ∈ inp.enumTags, ∀ tag, ¬ inp.Resolves title isDefault default r p.1 tag) →
      o.run title isDefault default r = .panic) ∧
    ((∀ p ∈ inp.enumTags, ∃ tag, inp.Resolves title isDefault default r p.1 tag) →
      (∀ p ∈ inp.enumTags, ∀ q ∈ inp.enumTags, ∀ tag, inp.Resolves title isDefault default r p.1 tag →
        inp.Resolves title isDefault default r q.1 tag → p.1 = q.1) →
      ∃ r', o.run title isDefault default r = .ok r' ∧ r'.types = r.types ∧
        (∀ x ∈ s.tags.entries, ∃ i, parseUint32 x.2 = .ok i ∧ r'.parseTag (normalizeName title x.1) = .ok i ∧
          r'.formatTag i = normalizeName title x.1) ∧
        (∀ v ∈ s.enums, Registered title (inp.Resolves title isDefault default r) r' false v) ∧
        (∀ v ∈ s.masks, Registered title (inp.Resolves title isDefault default r) r' true v) ∧
        ∀ tag, (∀ p ∈ inp.enumTags, ¬ inp.Resolves title isDefault default r p.1 tag) →
          r'.enumForTag tag = r.enumForTag tag) := by
  revert o
  rw [Inputs.compiled_eq hliteral hquoted]
  intro o
  obtain ⟨⟨tags, htags, hsorted⟩, henums, hmasks⟩ := prepareInput_eq_ok hprep
  have hlists : Lists title s.tags.entries inp.tags := by
    rw [hsorted]
    exact (tagVals_lists htags).perm (hsort.perm tags)
  have hdistinct := hcompiles.distinct_tags hlists
  constructor
  · rintro ⟨p, hp, hbad⟩
    exact o.run_panic hdistinct hp hbad
  · intro hresolve hsingle
    obtain ⟨r', hrun, hrtags, hrtypes, hgets, hkeeps⟩ := o.run_ok hdistinct hcompiles.enums hresolve hsingle
    refine ⟨r', hrun, hrtypes, fun x hx => ?_, ?_, ?_, hkeeps⟩
    · obtain ⟨t, ht, hi, -, hname⟩ := hlists.all x hx
      rw [← hname]
      exact ⟨t.value, hi, (hdistinct.perm o.tags_perm).parseTag_formatTag hrtags (o.tags_perm.mem_iff.mpr ht)
        (hhex t ht)⟩
    · exact registered_of_prepared hcompiles o hresolve hgets (toEnumVals_prepared hsort henums)
        fun ev hev => List.mem_append_left _ hev
    · exact registered_of_prepared hcompiles o hresolve hgets (toEnumVals_prepared hsort hmasks)
        fun ev hev => List.mem_append_right _ hev

end

/-- Every loop goes backwards. -/
def Inputs.backwards (inp : Inputs) : inp.Orders where
  tags := inp.tags.reverse
  vals ev := ev.vals.reverse
  enums := inp.enumTags.reverse
  tags_perm := List.reverse_perm _
  vals_perm _ := List.reverse_perm _
  enums_perm := List.reverse_perm _

theorem keyInputs_keyState : keyInputs.Resolves id true .empty .empty (lit "KeyState") 0x540001 :=
  eq_ok_of_toOption (by decide +kernel)

theorem keyInputs_keyUse : keyInputs.Resolves id true .empty .empty (lit "KeyUse") 0x540002 :=
  eq_ok_of_toOption (by decide +kernel)

theorem keyInputs_enumTags {p : GoString × EnumVal} (hp : p ∈ keyInputs.enumTags) :
    p.1 = lit "KeyState" ∨ p.1 = lit "KeyUse" := by
  rcases List.mem_cons.mp hp with rfl | hp
  · exact Or.inl rfl
  · exact Or.inr (by rw [List.mem_singleton.mp hp])

theorem keyInputs_resolve : ∀ p ∈ keyInputs.enumTags, ∃ tag, keyInputs.Resolves id true .empty .empty p.1 tag := by
  intro p hp
  rcases keyInputs_enumTags hp with h | h
  · exact ⟨_, h ▸ keyInputs_keyState⟩
  · exact ⟨_, h ▸ keyInputs_keyUse⟩

theorem keyInputs_single : ∀ p ∈ keyInputs.enumTags, ∀ q ∈ keyInputs.enumTags, ∀ tag,
    keyInputs.Resolves id true .empty .empty p.1 tag → keyInputs.Resolves id true .empty .empty q.1 tag →
      p.1 = q.1 := by
  intro p hp q hq tag htag htag'
  rcases keyInputs_enumTags hp with h | h <;> rcases keyInputs_enumTags hq with h' | h' <;>
    rw [h] at htag ⊢ <;> rw [h'] at htag' ⊢
  · exact absurd ((keyInputs_keyState.unique htag).trans (htag'.unique keyInputs_keyUse)) (by decide)
  · exact absurd ((keyInputs_keyUse.unique htag).trans (htag'.unique keyInputs_keyState)) (by decide)

theorem keyInputs_plain : ∀ t ∈ keyInputs.tags, hasPrefix t.name (lit "0x") = false := by
  intro t ht
  rcases List.mem_cons.mp ht with rfl | ht
  · rfl
  · rw [List.mem_singleton.mp ht]
    rfl

/-- A compiler of plain texts. -/
theorem literal_id : Literal id := ⟨fun _ _ => rfl⟩

theorem keyInputs_quoted : keyInputs.Quoted := by
  have hall : ((keyInputs.tags ++ keyInputs.all.flatMap EnumVal.vals).all fun t =>
      t.fullName.all fun b => b != 34 && b != 92 && b != 10) = true := by decide
  intro t ht b hb
  simpa [and_assoc] using List.all_eq_true.mp (List.all_eq_true.mp hall t ht) b hb

/-- The registry afterwards has the names of the enumeration and those of the mask. -/
theorem generated_registers_keys :
    ∃ r', (keyInputs.compiled id).backwards.run id true .empty .empty = .ok r' ∧
      r'.parseTag (lit "KeyState") = .ok 0x540001 ∧ r'.formatTag 0x540002 = lit "KeyUse" ∧
      (∃ e, r'.enumForTag 0x540001 = some e ∧ e.bitMask = false ∧ e.name 2 = some (lit "Gone")) ∧
      ∃ e, r'.enumForTag 0x540002 = some e ∧ e.bitMask = true ∧ e.value (lit "WrapKey") = some 4 := by
  have hnames : normalizeName id (lit "Key State") = lit "KeyState" ∧ normalizeName id (lit "Key Use") = lit "KeyUse" ∧
      normalizeName id (lit "Gone") = lit "Gone" ∧ normalizeName id (lit "Wrap Key") = lit "WrapKey" := by
    decide +kernel
  have hhex : parseUint32 (.string (lit "0x540001")) = .ok 0x540001 := eq_ok_of_toOption (by decide +kernel)
  have hnumber : parseUint32 (.number 5505026) = .ok 0x540002 := eq_ok_of_toOption (by decide +kernel)
  have hlong : parseUint32 (.string (lit "0x00000002")) = .ok 2 := eq_ok_of_toOption (by decide +kernel)
  have hdecimal : parseUint32 (.string (lit "4")) = .ok 4 := eq_ok_of_toOption (by decide +kernel)
  obtain ⟨r', hrun, -, htags, henums, hmasks, -⟩ := (generated_registers byValue_sorts literal_id
    prepareInput_keys keyInputs_compiles keyInputs_quoted keyInputs_plain (keyInputs.compiled id).backwards true
    .empty .empty).2 keyInputs_resolve keyInputs_single
  obtain ⟨_, hone, hparse, -⟩ := htags ⟨lit "Key State", .string (lit "0x540001")⟩ (List.mem_cons_self ..)
  obtain ⟨_, htwo, -, hformat⟩ := htags ⟨lit "Key Use", .number 5505026⟩
    (List.mem_cons_of_mem _ (List.mem_cons_self ..))
  obtain ⟨tag, e, htag, he, hmask, hanswers⟩ :=
    henums _ (List.mem_cons_self ..) (lit "Key State") (List.mem_cons_self ..)
  obtain ⟨tag', e', htag', he', hmask', hanswers'⟩ :=
    hmasks _ (List.mem_cons_self ..) (lit "Key Use") (List.mem_cons_self ..)
  obtain ⟨_, hgone, -, hname⟩ := hanswers.value ⟨lit "Gone", .string (lit "0x00000002")⟩
    (List.mem_cons_of_mem _ (List.mem_cons_self ..))
  obtain ⟨_, hwrap, hvalue, -⟩ := hanswers'.value ⟨lit "Wrap Key", .string (lit "4")⟩ (List.mem_cons_self ..)
  rw [Except.ok.inj (hone.symm.trans hhex)] at hparse
  rw [Except.ok.inj (htwo.symm.trans hnumber)] at hformat
  rw [Except.ok.inj (hgone.symm.trans hlong)] at hname
  rw [Except.ok.inj (hwrap.symm.trans hdecimal)] at hvalue
  simp only [hnames] at hparse hformat htag htag' hname hvalue
  rw [← keyInputs_keyState.unique htag] at he
  rw [← keyInputs_keyUse.unique htag'] at he'
  exact ⟨r', hrun, hparse, hformat, ⟨e, he, hmask, hname⟩, e', he', hmask', hvalue⟩

end KmipGo.Kmipgen
