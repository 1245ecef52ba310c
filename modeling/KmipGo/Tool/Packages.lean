import KmipGo.Tool.Conversion
import KmipGo.Tool.Kmipgen

/-! # Packages of definitions

The registry of a program after its `init` functions.  Package `ttlv` registers the
types; `kmip14`, `kmip20` and the packages of an application register what was
generated for them.  `kmip20` also registers the tables of all tags and of all types
as enumerations, by pointers, so that what is registered later is found there as
well.  Here a registry holds such pointers, and `view` follows them.

* `loadEnums_follows` — on this registry the generated code does what it does on one
  of tables.
* `Loads` — packages are loaded one after the other.
* `packages_standard` — whatever is loaded, the registry is one for which the text forms
  of messages are inverse, and no package changes what the name of a tag denotes.
-/

namespace KmipGo.Kmipgen

open KmipGo.Lib KmipGo.Ttlv KmipGo.Reg KmipGo.Text

/-! ## Registries with pointers -/

/-- An enumeration as it is registered: a table of its own, or a pointer to one of the registry. -/
inductive EnumRef where
  | own (e : Enum)
  | tags
  | types

structure PtrRegistry where
  enums : AList fun _ : Tag => EnumRef
  tags : Enum
  types : Enum

namespace PtrRegistry

def deref (r : PtrRegistry) : EnumRef → Enum
  | .own e => e
  | .tags => r.tags
  | .types => r.types

/-- The tables that are found in the registry at this time. -/
def view (r : PtrRegistry) : Registry where
  enums := ⟨r.enums.entries.map (.map id fun _ => r.deref), List.NodupKeys.map₂ _ _ r.enums.nodupKeys⟩
  tags := r.tags
  types := r.types

theorem enumForTag_view (r : PtrRegistry) (t : Tag) : r.view.enumForTag t = (r.enums.lookup t).map r.deref :=
  List.dlookup_map₂ t

def registerTag (title : Bytes → Bytes) (r : PtrRegistry) (t : Tag) (name : GoString) : PtrRegistry :=
  { r with tags := r.tags.registerValue title t name }

def registerEnum (r : PtrRegistry) (t : Tag) (ref : EnumRef) : PtrRegistry :=
  { r with enums := r.enums.insert t ref }

/-- `DefaultRegistry` after the `init` function of package `ttlv`. -/
def init (title : Bytes → Bytes) : PtrRegistry := ⟨∅, newEnum, newEnum.register title typeHistory⟩

end PtrRegistry

def tagAttributeReference : Tag := 0x42013b
def tagExtensionType : Tag := 0x4200a7

section

variable (title : Bytes → Bytes)

/-- The second loop of `RegisterGeneratedDefinitions(&DefaultRegistry)`. -/
def loadEnums : PtrRegistry → List (GoString × Enum) → Res ParseErr PtrRegistry
  | r, [] => .ok r
  | r, (tagName, enum) :: rest =>
    match r.view.parseTag tagName with
    | .error _ => .panic
    | .ok tag => loadEnums (r.registerEnum tag (.own enum)) rest

def loadTags (r : PtrRegistry) (tags : List TagVal) : PtrRegistry :=
  tags.foldl (fun r t => r.registerTag title t.value t.fullName) r

/-- `RegisterGeneratedDefinitions(&DefaultRegistry)`, with the orders of its loops. -/
def Inputs.Orders.load {inp : Inputs} (o : inp.Orders) (r : PtrRegistry) : Res ParseErr PtrRegistry :=
  loadEnums (loadTags title r o.tags) (o.enums.map fun p => (p.1, p.2.newEnum title (o.vals p.2)))

/-- The `Register` functions: of `kmip14` and of packages of an application, and of `kmip20`. -/
inductive Kind where
  | generated
  | kmip20
deriving DecidableEq

def Kind.register (kind : Kind) {inp : Inputs} (o : inp.Orders) (r : PtrRegistry) : Res ParseErr PtrRegistry :=
  match kind with
  | .generated => o.load title r
  | .kmip20 => o.load title ((r.registerEnum tagAttributeReference .tags).registerEnum tagExtensionType .types)

end

/-! ## Tables that grow -/

section

variable {title : Bytes → Bytes}

theorem register_append (e : Enum) (old new : History) :
    e.register title (old ++ new) = (e.register title old).register title new :=
  List.foldl_append

/-- The names are new, or denote the values that they are given now. -/
def Fresh (title : Bytes → Bytes) (e : Enum) (new : History) : Prop :=
  ∀ r ∈ new, ∀ v, e.value (normalizeName title r.2) = some v → v = r.1

/-- The history of a table, and what is registered after it. -/
theorem History.Consistent.append {e : Enum} {old new : History} (hold : old.Consistent title)
    (hnew : new.Consistent title) (hfresh : Fresh title (e.register title old) new) :
    (old ++ new).Consistent title where
  distinct r hr s hs hname := by
    have hagrees : ∀ q ∈ old, ∀ q' ∈ new, normalizeName title q.2 = normalizeName title q'.2 → q.1 = q'.1 := by
      intro q hq q' hq' hsame
      refine hfresh q' hq' q.1 ?_
      rw [← hsame]
      exact value_normalized title e hold hq
    rcases List.mem_append.mp hr with hr | hr <;> rcases List.mem_append.mp hs with hs | hs
    · exact hold.distinct r hr s hs hname
    · exact hagrees r hr s hs hname
    · exact (hagrees s hs r hr hname.symm).symm
    · exact hnew.distinct r hr s hs hname
  readable r hr := by
    rcases List.mem_append.mp hr with hr | hr
    · exact hold.readable r hr
    · exact hnew.readable r hr

theorem Consistent.register {e : Enum} (h : e.Consistent title) {new : History} (hnew : new.Consistent title)
    (hfresh : Fresh title e new) : (e.register title new).Consistent title := by
  obtain ⟨old, hold, he⟩ := h
  refine ⟨old ++ new, ?_, ?_⟩
  · rcases he with rfl | rfl
    · exact History.Consistent.append hold hnew hfresh
    · exact History.Consistent.append hold hnew hfresh
  · rcases he with rfl | rfl
    · exact Or.inl (register_append _ old new).symm
    · exact Or.inr (register_append _ old new).symm

/-- What the table of canonical names holds was registered under that name. -/
theorem mem_of_canonicalNamesToValue_register {e : Enum} (hempty : ∀ s, e.canonicalNamesToValue.lookup s = none)
    {hist : History} {s : GoString} {v : BitVec 32}
    (h : (e.register title hist).canonicalNamesToValue.lookup s = some v) : ∃ r ∈ hist, r.1 = v ∧ r.2 = s := by
  induction hist using List.reverseRecOn with
  | nil =>
    rw [Enum.register, List.foldl_nil, hempty] at h
    cases h
  | append_singleton hist q ih =>
    rw [register_snoc] at h
    simp only [Enum.registerValue] at h
    by_cases hname : s = q.2
    · rw [hname, AList.lookup_insert, Option.some.injEq] at h
      exact ⟨q, by simp, h, hname.symm⟩
    · rw [AList.lookup_insert_ne hname] at h
      obtain ⟨r, hr, hval, hsame⟩ := ih h
      exact ⟨r, by simp [hr], hval, hsame⟩

/-- What a text denotes in a consistent table it denotes also when more is registered. -/
theorem Consistent.value_register {e : Enum} (h : e.Consistent title) {new : History} (hnew : new.Consistent title)
    (hfresh : Fresh title e new) {s : GoString} {v : BitVec 32} (hv : e.value s = some v) :
    (e.register title new).value s = some v := by
  obtain ⟨old, hold, he⟩ := h
  obtain ⟨e₀, rfl, hvalues, hcanon⟩ : ∃ e₀ : Enum, e = e₀.register title old ∧ (∀ s, e₀.value s = none) ∧
      ∀ s, e₀.canonicalNamesToValue.lookup s = none := by
    rcases he with rfl | rfl
    · exact ⟨newEnum, rfl, fun s => rfl, fun s => AList.lookup_empty s⟩
    · exact ⟨newBitmask, rfl, fun s => rfl, fun s => AList.lookup_empty s⟩
  have hall := History.Consistent.append hold hnew hfresh
  have hread := hv
  rw [← register_append]
  rw [Enum.value] at hread
  cases hfirst : (e₀.register title old).nameToValue.lookup s with
  | some w =>
    -- a normalized name
    rw [hfirst] at hread
    cases hread
    obtain ⟨r, hr, rfl, rfl⟩ := mem_of_nameToValue_register title hvalues hfirst
    exact value_normalized title e₀ hall (List.mem_append_left _ hr)
  | none =>
    -- a canonical name, which may be the normalized name of a registration that follows
    rw [hfirst] at hread
    obtain ⟨r, hr, rfl, rfl⟩ := mem_of_canonicalNamesToValue_register hcanon hread
    refine value_canonical title hvalues hall (List.mem_append_left _ hr) ?_
    intro q hq hname
    rcases List.mem_append.mp hq with hq | hq
    · have hsome := nameToValue_register title e₀ hold.distinct q hq
      rw [hname, hfirst] at hsome
      cases hsome
    · rw [← hname] at hv
      exact (hfresh q hq r.1 hv).symm

end

/-! ## Packages that fit -/

/-- What is asked of a package, next to what is registered already: its names need no escape, are not numbers
    and do not stand for other tags, and its enumerations are for tags that are known, each for another one,
    and not for the tags of `kmip20` that list tags and types. -/
structure Fits (title : Bytes → Bytes) (r : Registry) (inp : Inputs) : Prop where
  compiles : inp.Compiles
  quoted : inp.Quoted
  tagNames : ∀ t ∈ inp.tags, Readable t.name
  valueNames : ∀ ev ∈ inp.all, ∀ t ∈ ev.vals, Readable t.name
  fresh : ∀ t ∈ inp.tags, ∀ v, r.parseTag t.name = .ok v → v = t.value
  known : ∀ p ∈ inp.enumTags, ∃ tag, inp.Resolves title true r r p.1 tag
  single : ∀ p ∈ inp.enumTags, ∀ q ∈ inp.enumTags, ∀ tag, inp.Resolves title true r r p.1 tag →
    inp.Resolves title true r r q.1 tag → p.1 = q.1
  reserved : ∀ p ∈ inp.enumTags, ∀ tag, inp.Resolves title true r r p.1 tag →
    tag ≠ tagNone ∧ tag ≠ tagAttributeReference ∧ tag ≠ tagExtensionType

section

variable {title : Bytes → Bytes}

/-- Only the tags of the registry matter. -/
theorem resolves_congr {r r' : Registry} (h : r.tags = r'.tags) (inp : Inputs) (name : GoString) (tag : Tag) :
    inp.Resolves title true r r name tag ↔ inp.Resolves title true r' r' name tag := by
  have hsame : (registerTags title r inp.tags).parseTag name = (registerTags title r' inp.tags).parseTag name := by
    apply parseTag_congr
    rw [registerTags_eq, registerTags_eq, h]
  show (registerTags title r inp.tags).parseTag name = _ ↔ (registerTags title r' inp.tags).parseTag name = _
  rw [hsame]

theorem Fits.congr {r r' : Registry} {inp : Inputs} (hfits : Fits title r inp) (h : r.tags = r'.tags) :
    Fits title r' inp where
  compiles := hfits.compiles
  quoted := hfits.quoted
  tagNames := hfits.tagNames
  valueNames := hfits.valueNames
  fresh t ht v hv := by
    have hsame : r'.parseTag t.name = r.parseTag t.name := parseTag_congr (by rw [h])
    exact hfits.fresh t ht v (hsame.symm.trans hv)
  known p hp := by
    obtain ⟨tag, htag⟩ := hfits.known p hp
    exact ⟨tag, (resolves_congr h inp p.1 tag).mp htag⟩
  single p hp q hq tag htag htag' :=
    hfits.single p hp q hq tag ((resolves_congr h inp p.1 tag).mpr htag) ((resolves_congr h inp q.1 tag).mpr htag')
  reserved p hp tag htag := hfits.reserved p hp tag ((resolves_congr h inp p.1 tag).mpr htag)

theorem consistent_registrations {vals : List TagVal} (h : Distinct title vals) (hread : ∀ t ∈ vals, Readable t.name) :
    (registrations vals).Consistent title where
  distinct := h.consistent
  readable r hr := by
    obtain ⟨t, ht, rfl⟩ := mem_registrations.mp hr
    rw [← h.name_eq t ht]
    exact hread t ht

variable {sort : List TagVal → List TagVal} {room : Bool}

theorem prepared_of_mem {bitMask : Bool} {vs : List EnumDef} {evs : List EnumVal}
    (h : List.Forall₂ (Prepared title bitMask) vs evs) {ev : EnumVal} (hev : ev ∈ evs) :
    ∃ v, Prepared title bitMask v ev := by
  induction h with
  | nil => cases hev
  | cons hv _ ih =>
    rcases List.mem_cons.mp hev with rfl | hev
    · exact ⟨_, hv⟩
    · exact ih hev

/-- Nothing that an accepted specification defines is there twice. -/
theorem prepareInput_distinct (hsort : Sorts sort) {s : Specifications} {inp : Inputs}
    (hprep : prepareInput title sort room s = .ok inp) (hcompiles : inp.Compiles) :
    Distinct title inp.tags ∧ ∀ ev ∈ inp.all, Distinct title ev.vals := by
  obtain ⟨⟨tags, htags, hsorted⟩, henums, hmasks⟩ := prepareInput_eq_ok hprep
  have hlists : Lists title s.tags.entries inp.tags := by
    rw [hsorted]
    exact (tagVals_lists htags).perm (hsort.perm tags)
  refine ⟨hcompiles.distinct_tags hlists, fun ev hev => ?_⟩
  rcases List.mem_append.mp hev with hmem | hmem
  · obtain ⟨v, hv⟩ := prepared_of_mem (toEnumVals_prepared hsort henums) hmem
    exact hcompiles.distinct_vals hev hv.vals
  · obtain ⟨v, hv⟩ := prepared_of_mem (toEnumVals_prepared hsort hmasks) hmem
    exact hcompiles.distinct_vals hev hv.vals

/-! ## One package -/

theorem fresh_of_fits {r : Registry} {inp : Inputs} (hfits : Fits title r inp) (hdistinct : Distinct title inp.tags)
    {tags : List TagVal} (hperm : tags.Perm inp.tags) : Fresh title r.tags (registrations tags) := by
  intro q hq v hv
  obtain ⟨t, ht, rfl⟩ := mem_registrations.mp hq
  have hmem := hperm.mem_iff.mp ht
  rw [← hdistinct.name_eq t hmem] at hv
  refine hfits.fresh t hmem v ?_
  rw [Registry.parseTag, parseTag, parseHexOrName_of_not_hex (hfits.tagNames t hmem).not_hex, Option.bind_some, hv]
  rfl

/-- A registry with more definitions, in which texts still denote the tags that they did. -/
structure Extended (title : Bytes → Bytes) (r r' : Registry) : Prop where
  standard : r'.Standard title
  types : r'.types = r.types
  values : ∀ s v, r.tags.value s = some v → r'.tags.value s = some v

theorem run_extended (hsort : Sorts sort) {s : Specifications} {inp : Inputs}
    (hprep : prepareInput title sort room s = .ok inp) {r : Registry} (hfits : Fits title r inp)
    (hr : r.Standard title) (o : inp.Orders) :
    ∃ r', o.run title true r r = .ok r' ∧ Extended title r r' := by
  obtain ⟨hdistinct, hvals⟩ := prepareInput_distinct hsort hprep hfits.compiles
  obtain ⟨r', hrun, htags, htypes, hgets, hkeeps⟩ :=
    o.run_ok hdistinct hfits.compiles.enums hfits.known hfits.single
  have hnew : (registrations o.tags).Consistent title :=
    consistent_registrations (hdistinct.perm o.tags_perm) fun t ht => hfits.tagNames t (o.tags_perm.mem_iff.mp ht)
  have hfresh := fresh_of_fits hfits hdistinct o.tags_perm
  refine ⟨r', hrun, ⟨hr.keepsWords, ?_, ?_, ?_, ?_, ?_⟩, htypes, ?_⟩
  · rw [htags]
    exact Consistent.register hr.tags hnew hfresh
  · rw [htypes]
    exact hr.types
  · -- the table of a type that was generated, or one that was there before
    intro t e he
    by_cases hres : ∃ p ∈ inp.enumTags, inp.Resolves title true r r p.1 t
    · obtain ⟨p, hp, htag⟩ := hres
      rw [hgets p hp t htag] at he
      cases he
      obtain ⟨ev, hev, hmem⟩ := List.mem_flatMap.mp hp
      obtain ⟨n, -, rfl⟩ := List.mem_map.mp hmem
      have hperm := o.vals_perm ev
      refine ⟨registrations (o.vals ev), consistent_registrations ((hvals ev hev).perm hperm) fun t ht =>
        hfits.valueNames ev hev t (hperm.mem_iff.mp ht), ?_⟩
      rw [EnumVal.newEnum]
      cases ev.bitMask with
      | true => exact Or.inr rfl
      | false => exact Or.inl rfl
    · rw [hkeeps t fun p hp h => hres ⟨p, hp, h⟩] at he
      exact hr.enums t e he
  · intro ty
    rw [htypes]
    exact hr.typeNames ty
  · rw [hkeeps tagNone fun p hp h => (hfits.reserved p hp tagNone h).1 rfl]
    exact hr.noneUnnamed
  · intro s v hv
    rw [htags]
    exact Consistent.value_register hr.tags hnew hfresh hv

/-! ## Pointers -/

/-- A registry with pointers and one of tables, both after the same calls from `r₀` on.  They have the same
    tables for the tags in `touched`; the other tags have what they have in `r₀`. -/
structure Follows (touched : Tag → Prop) (r₀ r : PtrRegistry) (reg : Registry) : Prop where
  tags : r.tags = reg.tags
  types : r.types = reg.types
  enums : ∀ t, r.enums.lookup t = r₀.enums.lookup t ∨
    touched t ∧ ∃ e, r.enums.lookup t = some (.own e) ∧ reg.enumForTag t = some e

theorem Follows.registerEnum {touched : Tag → Prop} {r₀ r : PtrRegistry} {reg : Registry}
    (h : Follows touched r₀ r reg) {tag : Tag} (htag : touched tag) (e : Enum) :
    Follows touched r₀ (r.registerEnum tag (.own e)) (reg.registerEnum tag e) where
  tags := h.tags
  types := h.types
  enums t := by
    by_cases ht : t = tag
    · subst ht
      exact Or.inr ⟨htag, e, AList.lookup_insert _, AList.lookup_insert _⟩
    · have hptr : (r.registerEnum tag (.own e)).enums.lookup t = r.enums.lookup t := AList.lookup_insert_ne ht
      have htable : (reg.registerEnum tag e).enumForTag t = reg.enumForTag t := AList.lookup_insert_ne ht
      rw [hptr, htable]
      exact h.enums t

theorem loadEnums_follows {touched : Tag → Prop} {r₀ r : PtrRegistry} {default reg reg' : Registry}
    (h : Follows touched r₀ r reg) {enums : List (GoString × Enum)}
    (htouched : ∀ q ∈ enums, ∀ tag, reg.parseTag q.1 = .ok tag → touched tag)
    (hrun : registerEnums true default reg enums = .ok reg') :
    ∃ r', loadEnums r enums = .ok r' ∧ Follows touched r₀ r' reg' := by
  induction enums generalizing r reg with
  | nil =>
    cases hrun
    exact ⟨r, rfl, h⟩
  | cons q enums ih =>
    have hparse : r.view.parseTag q.1 = reg.parseTag q.1 := parseTag_congr (congrArg (Enum.value · q.1) h.tags)
    rw [registerEnums, lookupRegistry, if_pos rfl] at hrun
    cases hq : reg.parseTag q.1 with
    | error e =>
      rw [hq] at hrun
      cases hrun
    | ok tag =>
      rw [hq] at hrun
      have hnext := h.registerEnum (htouched q (List.mem_cons_self ..) tag hq) q.2
      obtain ⟨r', hload, hfollows⟩ := ih hnext (fun p hp => htouched p (List.mem_cons_of_mem q hp)) hrun
      refine ⟨r', ?_, hfollows⟩
      rw [loadEnums, hparse, hq]
      exact hload

theorem loadTags_eq (r : PtrRegistry) (tags : List TagVal) :
    loadTags title r tags = { r with tags := r.tags.register title (registrations tags) } := by
  induction tags generalizing r with
  | nil => rfl
  | cons t tags ih =>
    rw [loadTags, List.foldl_cons, ← loadTags, ih]
    rfl

/-- The tables that the pointers lead to are consistent if those of the registry are. -/
theorem Follows.standard {touched : Tag → Prop} {r₀ r : PtrRegistry} {reg : Registry}
    (h : Follows touched r₀ r reg) (hr₀ : r₀.view.Standard title) (hreg : reg.Standard title)
    (hnone : ¬ touched tagNone) : r.view.Standard title where
  keepsWords := hreg.keepsWords
  tags := by
    rw [PtrRegistry.view, h.tags]
    exact hreg.tags
  types := by
    rw [PtrRegistry.view, h.types]
    exact hreg.types
  enums t e he := by
    rw [PtrRegistry.enumForTag_view, Option.map_eq_some_iff] at he
    obtain ⟨ref, href, rfl⟩ := he
    rcases h.enums t with hsame | ⟨-, e, hown, htable⟩
    · rw [hsame] at href
      cases ref with
      | own e => exact hr₀.enums t e (by rw [PtrRegistry.enumForTag_view, href]; rfl)
      | tags =>
        rw [PtrRegistry.deref, h.tags]
        exact hreg.tags
      | types =>
        rw [PtrRegistry.deref, h.types]
        exact hreg.types
    · rw [hown] at href
      cases href
      exact hreg.enums t e htable
  typeNames ty := by
    rw [PtrRegistry.view, h.types]
    exact hreg.typeNames ty
  noneUnnamed := by
    rcases h.enums tagNone with hsame | ⟨hbad, -⟩
    · have hempty := hr₀.noneUnnamed
      rw [PtrRegistry.enumForTag_view, Option.map_eq_none_iff] at hempty
      rw [PtrRegistry.enumForTag_view, hsame, hempty]
      rfl
    · exact absurd hbad hnone

/-- The pointers of `kmip20` are there. -/
def HasPointers (r : PtrRegistry) : Prop :=
  r.enums.lookup tagAttributeReference = some .tags ∧ r.enums.lookup tagExtensionType = some .types

/-- A package that fits is loaded without a panic, and no pointer of `kmip20` is lost. -/
theorem load_extended (hsort : Sorts sort) {s : Specifications} {inp : Inputs}
    (hprep : prepareInput title sort room s = .ok inp) {r : PtrRegistry} (hfits : Fits title r.view inp)
    (hr : r.view.Standard title) (o : inp.Orders) :
    ∃ r', o.load title r = .ok r' ∧ Extended title r.view r'.view ∧ (HasPointers r → HasPointers r') := by
  obtain ⟨hdistinct, -⟩ := prepareInput_distinct hsort hprep hfits.compiles
  obtain ⟨reg', hrun, hext⟩ := run_extended hsort hprep hfits hr o
  let touched : Tag → Prop := fun t => ∃ p ∈ inp.enumTags, inp.Resolves title true r.view r.view p.1 t
  have hstart : Follows touched r (loadTags title r o.tags) (registerTags title r.view o.tags) := by
    rw [loadTags_eq, registerTags_eq]
    exact ⟨rfl, rfl, fun t => Or.inl rfl⟩
  obtain ⟨r', hload, hfollows⟩ := loadEnums_follows hstart (fun q hq tag htag => by
    obtain ⟨p, hp, rfl⟩ := o.mem_enums.mp hq
    exact ⟨p, hp, (resolves_iff hdistinct o.tags_perm).mpr htag⟩) hrun
  have hreserved : ∀ t, touched t → t ≠ tagNone ∧ t ≠ tagAttributeReference ∧ t ≠ tagExtensionType := by
    rintro t ⟨p, hp, htag⟩
    exact hfits.reserved p hp t htag
  refine ⟨r', hload, ⟨hfollows.standard hr hext.standard fun h => (hreserved _ h).1 rfl, ?_, ?_⟩, ?_⟩
  · exact hfollows.types.trans hext.types
  · intro s v hv
    rw [PtrRegistry.view, hfollows.tags]
    exact hext.values s v hv
  · rintro ⟨hreference, htype⟩
    constructor
    · rcases hfollows.enums tagAttributeReference with hsame | ⟨hbad, -⟩
      · rw [hsame, hreference]
      · exact absurd rfl (hreserved _ hbad).2.1
    · rcases hfollows.enums tagExtensionType with hsame | ⟨hbad, -⟩
      · rw [hsame, htype]
      · exact absurd rfl (hreserved _ hbad).2.2

theorem registerEnum_standard {r : PtrRegistry} (hr : r.view.Standard title) {t : Tag} (ht : t ≠ tagNone)
    {ref : EnumRef} (href : (r.deref ref).Consistent title) : (r.registerEnum t ref).view.Standard title where
  keepsWords := hr.keepsWords
  tags := hr.tags
  types := hr.types
  enums u e he := by
    have hderef : (r.registerEnum t ref).deref = r.deref := by
      funext x
      cases x <;> rfl
    rw [PtrRegistry.enumForTag_view, hderef] at he
    by_cases hu : u = t
    · rw [hu, PtrRegistry.registerEnum, AList.lookup_insert] at he
      cases he
      exact href
    · rw [PtrRegistry.registerEnum, AList.lookup_insert_ne hu] at he
      exact hr.enums u e (by rw [PtrRegistry.enumForTag_view, he])
  typeNames := hr.typeNames
  noneUnnamed := by
    have hempty := hr.noneUnnamed
    rw [PtrRegistry.enumForTag_view, Option.map_eq_none_iff] at hempty
    rw [PtrRegistry.enumForTag_view, PtrRegistry.registerEnum, AList.lookup_insert_ne (Ne.symm ht), hempty]
    rfl

theorem register_extended (hsort : Sorts sort) {literal : GoString → GoString} (hliteral : Literal literal)
    {s : Specifications} {inp : Inputs} (hprep : prepareInput title sort room s = .ok inp) {r : PtrRegistry}
    (hfits : Fits title r.view inp) (hr : r.view.Standard title) (o : (inp.compiled literal).Orders) (kind : Kind) :
    ∃ r', kind.register title o r = .ok r' ∧ Extended title r.view r'.view ∧
      (kind = .kmip20 ∨ HasPointers r → HasPointers r') := by
  revert o
  rw [Inputs.compiled_eq hliteral hfits.quoted]
  intro o
  cases kind with
  | generated =>
    obtain ⟨r', hload, hext, hptrs⟩ := load_extended hsort hprep hfits hr o
    refine ⟨r', hload, hext, ?_⟩
    rintro (h | h)
    · cases h
    · exact hptrs h
  | kmip20 =>
    have hfirst : (r.registerEnum tagAttributeReference .tags).view.Standard title :=
      registerEnum_standard hr (by decide) hr.tags
    have hboth : ((r.registerEnum tagAttributeReference .tags).registerEnum tagExtensionType .types).view.Standard
        title := registerEnum_standard hfirst (by decide) hr.types
    have hsame : Fits title
        ((r.registerEnum tagAttributeReference .tags).registerEnum tagExtensionType .types).view inp := hfits.congr rfl
    obtain ⟨r', hload, hext, hptrs⟩ := load_extended hsort hprep hsame hboth o
    refine ⟨r', hload, ⟨hext.standard, hext.types, hext.values⟩, fun _ => hptrs ⟨?_, AList.lookup_insert _⟩⟩
    rw [PtrRegistry.registerEnum, AList.lookup_insert_ne (by decide)]
    exact AList.lookup_insert _

end

/-! ## Runs -/

/-- Packages are loaded one after the other, each made from a specification that was accepted and fits. -/
inductive Loads (title : Bytes → Bytes) (sort : List TagVal → List TagVal) (room : Bool)
    (literal : GoString → GoString) : PtrRegistry → List Kind → PtrRegistry → Prop where
  | nil (r : PtrRegistry) : Loads title sort room literal r [] r
  | cons {r r₁ r' : PtrRegistry} {kinds : List Kind} {s : Specifications} {inp : Inputs} {kind : Kind}
      (o : (inp.compiled literal).Orders) (hprep : prepareInput title sort room s = .ok inp)
      (hfits : Fits title r.view inp) (hload : kind.register title o r = .ok r₁)
      (hrest : Loads title sort room literal r₁ kinds r') : Loads title sort room literal r (kind :: kinds) r'

section

variable {title : Bytes → Bytes} {sort : List TagVal → List TagVal} {room : Bool} {literal : GoString → GoString}

theorem standard_init (htitle : KeepsWords title) (hnames : ∀ ty, normalizeName title (typeName ty) = typeName ty) :
    (PtrRegistry.init title).view.Standard title := by
  show (registerTypes title .empty).Standard title
  exact standard_registerTypes htitle hnames rfl ⟨[], ⟨nofun, nofun⟩, Or.inl rfl⟩ (fun t e he => by cases he) rfl

theorem Loads.extended (hsort : Sorts sort) (hliteral : Literal literal) {r r' : PtrRegistry} {kinds : List Kind}
    (h : Loads title sort room literal r kinds r') (hr : r.view.Standard title) :
    Extended title r.view r'.view ∧ (.kmip20 ∈ kinds ∨ HasPointers r → HasPointers r') := by
  induction h with
  | nil r => exact ⟨⟨hr, rfl, fun _ _ hv => hv⟩, fun h => h.elim nofun id⟩
  | cons o hprep hfits hload _ ih =>
    obtain ⟨r₂, hload', hext, hptrs⟩ := register_extended hsort hliteral hprep hfits hr o _
    rw [hload] at hload'
    cases hload'
    obtain ⟨hmore, hlater⟩ := ih hext.standard
    refine ⟨⟨hmore.standard, hmore.types.trans hext.types, fun s v hv => hmore.values s v (hext.values s v hv)⟩, ?_⟩
    rintro (hmem | hbefore)
    · rcases List.mem_cons.mp hmem with hkind | hmem
      · exact hlater (Or.inr (hptrs (Or.inl hkind.symm)))
      · exact hlater (Or.inl hmem)
    · exact hlater (Or.inr (hptrs (Or.inr hbefore)))

/-- A text that is the hex form of a tag does not depend on the table; any other text is looked up. -/
theorem parseTag_mono {r r' : Registry} (h : ∀ s v, r.tags.value s = some v → r'.tags.value s = some v)
    {s : GoString} {tag : Tag} (hs : r.parseTag s = .ok tag) : r'.parseTag s = .ok tag := by
  simp only [Registry.parseTag, parseTag, parseHexOrName, Option.bind_some] at hs ⊢
  cases hhex : parseHexValue s 3 with
  | error e =>
    rw [hhex] at hs
    cases hs
  | ok b =>
    rw [hhex] at hs
    cases b with
    | some b => exact hs
    | none =>
      cases hv : r.tags.value s with
      | none =>
        rw [hv] at hs
        cases hs
      | some v =>
        rw [hv] at hs
        cases hs
        rw [h s tag hv]

theorem json_roundTrip {reg : Registry} (h : reg.Standard title) {C : JsonCodec} (hC : C.Lawful)
    {T : TimeCodec} (hT : T.Lawful) {b : Block} (hsize : b.Sized)
    (hb : TextBlock reg (fun s => validUTF8 s = true) title b) (hread : JsonForm.ValuesRead reg title b) :
    ∃ text, JsonForm.marshalJSON reg title C T b.bytes = .ok text ∧
      JsonForm.unmarshalJSON reg title C T text = .ok b.bytes := by
  have hmarshal := JsonForm.marshalJSON_block h hC.quote_plain hT b [] hsize hb
  rw [List.append_nil] at hmarshal
  refine ⟨_, hmarshal, ?_⟩
  rw [JsonForm.unmarshalJSON, hC.parse_render _ (JsonForm.writable_encode h hT b hb)]
  exact Res.toOption_eq_some.mp (((JsonForm.jsonForm_reads h hT _).decode_encode_iff hb).mpr hread)

theorem xml_roundTrip {reg : Registry} (h : reg.Standard title) {X : XmlCodec} (hX : X.Lawful)
    {T : TimeCodec} (hT : T.Lawful) {b : Block} (hsize : b.Sized)
    (hb : TextBlock reg (fun s => xmlSafe s = true) title b) (hread : XmlForm.XmlReadable reg title b) :
    ∃ text, XmlForm.encodeXML reg title X T b.bytes = .ok text ∧
      XmlForm.unmarshalXML reg title X T text = .ok b.bytes := by
  obtain ⟨hmatch, hfaithful, hnames⟩ := (XmlForm.xmlReadable_iff b).mp hread
  refine ⟨_, XmlForm.encodeXML_block h hsize hb hmatch, ?_⟩
  rw [XmlForm.unmarshalXML,
    hX.read_write _ ⟨XmlForm.worded_encode h hT b hb, (XmlForm.named_encode_iff b).mpr hnames⟩]
  exact Res.toOption_eq_some.mp (((XmlForm.xmlForm_reads h hT _).decode_encode_iff hb).mpr hfaithful)

/-- Packages of definitions can be loaded one after the other.  In every registry that a program can
    reach from the `init` function of `ttlv`, a text still denotes the tag that it denoted before the last
    packages were loaded.  Another package that fits does not panic.  If `kmip20` is among the packages,
    Attribute Reference lists all tags and Extension Type all types, those of later packages as well.
    Messages come back from JSON and from XML. -/
theorem packages_standard (hsort : Sorts sort) (hliteral : Literal literal) (htitle : KeepsWords title)
    (hnames : ∀ ty, normalizeName title (typeName ty) = typeName ty) {before after : List Kind} {r r' : PtrRegistry}
    (hbefore : Loads title sort room literal (.init title) before r)
    (hafter : Loads title sort room literal r after r') :
    (∀ s tag, r.view.parseTag s = .ok tag → r'.view.parseTag s = .ok tag) ∧
    (∀ s inp, prepareInput title sort room s = .ok inp → Fits title r'.view inp →
      ∀ (o : (inp.compiled literal).Orders) (kind : Kind), ∃ r'', kind.register title o r' = .ok r'') ∧
    (.kmip20 ∈ before ++ after → r'.view.enumForTag tagAttributeReference = some r'.tags ∧
      r'.view.enumForTag tagExtensionType = some r'.types) ∧
    ∀ (C : JsonCodec) (X : XmlCodec) (T : TimeCodec), C.Lawful → X.Lawful → T.Lawful →
      ∀ b : Block, b.Sized →
        (TextBlock r'.view (fun s => validUTF8 s = true) title b → JsonForm.ValuesRead r'.view title b →
          ∃ text, JsonForm.marshalJSON r'.view title C T b.bytes = .ok text ∧
            JsonForm.unmarshalJSON r'.view title C T text = .ok b.bytes) ∧
        (TextBlock r'.view (fun s => xmlSafe s = true) title b → XmlForm.XmlReadable r'.view title b →
          ∃ text, XmlForm.encodeXML r'.view title X T b.bytes = .ok text ∧
            XmlForm.unmarshalXML r'.view title X T text = .ok b.bytes) := by
  obtain ⟨hext, hptrs⟩ := hbefore.extended hsort hliteral (standard_init htitle hnames)
  obtain ⟨hext', hptrs'⟩ := hafter.extended hsort hliteral hext.standard
  refine ⟨fun s tag => parseTag_mono hext'.values, fun s inp hprep hfits o kind => ?_, fun hmem => ?_,
    fun C X T hC hX hT b hsize =>
      ⟨json_roundTrip hext'.standard hC hT hsize, xml_roundTrip hext'.standard hX hT hsize⟩⟩
  · obtain ⟨r'', hload, -⟩ := register_extended hsort hliteral hprep hfits hext'.standard o kind
    exact ⟨r'', hload⟩
  · have hpointers : HasPointers r' := by
      rcases List.mem_append.mp hmem with hmem | hmem
      · exact hptrs' (Or.inr (hptrs (Or.inl hmem)))
      · exact hptrs' (Or.inl hmem)
    rw [PtrRegistry.enumForTag_view, PtrRegistry.enumForTag_view, hpointers.1, hpointers.2]
    exact ⟨rfl, rfl⟩

end

/-- The specification of `generated_registers_keys` defines nothing that is there. -/
theorem keyInputs_fits : Fits id .empty keyInputs where
  compiles := keyInputs_compiles
  quoted := keyInputs_quoted
  tagNames := by
    intro t ht
    rcases List.mem_cons.mp ht with rfl | ht
    · decide
    · rw [List.mem_singleton.mp ht]
      decide
  valueNames := by
    intro ev hev t ht
    rcases List.mem_cons.mp hev with rfl | hev
    · rcases List.mem_cons.mp ht with rfl | ht
      · decide
      · rw [List.mem_singleton.mp ht]
        decide
    · rw [List.mem_singleton.mp hev] at ht
      rw [List.mem_singleton.mp ht]
      decide
  fresh t ht v hv := by
    have hnone : Registry.empty.parseTag t.name = .error (.unregisteredEnumName t.name) := by
      rw [Registry.parseTag, parseTag, parseHexOrName_of_not_hex (keyInputs_plain t ht)]
      rfl
    rw [hnone] at hv
    cases hv
  known := keyInputs_resolve
  single := keyInputs_single
  reserved p hp tag htag := by
    rcases keyInputs_enumTags hp with h | h <;> rw [h] at htag
    · rw [← keyInputs_keyState.unique htag]
      decide
    · rw [← keyInputs_keyUse.unique htag]
      decide

theorem valid_keyState : Tag.Valid 0x540001 := by
  decide

theorem leafRule_gone : LeafRule .Enumeration [0, 0, 0, 2] [0, 0, 0, 0] :=
  ⟨rfl, rfl⟩

/-- The value Gone under the tag Key State. -/
def goneBlock : Block := .leaf ⟨0x540001, valid_keyState⟩ ⟨.Enumeration, [0, 0, 0, 2], [0, 0, 0, 0], leafRule_gone⟩

theorem goneBlock_sized : goneBlock.Sized := trivial

theorem textBlock_goneBlock (reg : Registry) (textOk : Bytes → Prop) : TextBlock reg textOk id goneBlock :=
  ⟨⟨⟨rfl, trivial⟩, trivial⟩, fun hty => by cases hty⟩

/-- Loaded as `kmip20` is, next to the types. -/
theorem packages_standard_keys :
    ∃ r', Kind.kmip20.register id (keyInputs.compiled id).backwards (.init id) = .ok r' ∧
      r'.view.enumForTag tagAttributeReference = some r'.tags ∧
      ∃ text, JsonForm.marshalJSON r'.view id compactCodec plainTime goneBlock.bytes = .ok text ∧
        JsonForm.unmarshalJSON r'.view id compactCodec plainTime text = .ok goneBlock.bytes := by
  have hfits : Fits id (PtrRegistry.init id).view keyInputs := keyInputs_fits.congr rfl
  obtain ⟨r', hload, -⟩ := register_extended byValue_sorts literal_id prepareInput_keys hfits
    (standard_init keepsWords_id normalizeName_id_typeName) (keyInputs.compiled id).backwards .kmip20
  obtain ⟨-, -, hptrs, htext⟩ := packages_standard byValue_sorts literal_id keepsWords_id normalizeName_id_typeName
    (.nil _) (.cons (keyInputs.compiled id).backwards prepareInput_keys hfits hload (.nil r'))
  obtain ⟨hjson, -⟩ := htext compactCodec compactXml plainTime compactCodec_lawful compactXml_lawful plainTime_lawful
    goneBlock goneBlock_sized
  exact ⟨r', hload, (hptrs (List.mem_cons_self ..)).1, hjson (textBlock_goneBlock _ _) trivial⟩

end KmipGo.Kmipgen
