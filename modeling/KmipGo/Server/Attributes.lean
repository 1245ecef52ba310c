import KmipGo.Registry.History
import KmipGo.Server.Placeholder

/-! # Attributes by tag

The lookups of `TemplateAttribute` in `base_objects.go`, on a list that was built
with `Append`.  `Append` names an attribute by the canonical name of its tag, and
the lookups by tag compare with the normalized name.

* `templateGetAllTag_appendAll` — what a lookup by tag selects among the calls of `Append`.
* `foundByTag_iff` — when that is the attributes appended under the tag.
-/

namespace KmipGo.Server

open KmipGo.Lib KmipGo.Ttlv KmipGo.Reg KmipGo.Go

/-! ## Lookups -/

def attributeIndex (a : Attribute) : BitVec 64 := a.fields.tail.head.get

/-- `TemplateAttribute.GetIdx`. -/
def templateGetIdx (t : GoVal (.ptr Message.templateAttribute)) (s : GoString) (idx : BitVec 64) :
    Option Attribute :=
  (pointee t).bind fun t => (attributes t).find? fun a => attributeName a = s ∧ attributeIndex a = idx

/-- `TemplateAttribute.GetAll`. -/
def templateGetAll (t : GoVal (.ptr Message.templateAttribute)) (s : GoString) : List Attribute :=
  (pointee t).elim [] fun t => (attributes t).filter fun a => attributeName a = s

section

variable (reg : Registry)

/-- `TemplateAttribute.GetTagIdx`. -/
def templateGetTagIdx (t : GoVal (.ptr Message.templateAttribute)) (tag : Tag) (idx : BitVec 64) :
    Option Attribute :=
  templateGetIdx t (reg.formatTag tag) idx

/-- `TemplateAttribute.GetAllTag`. -/
def templateGetAllTag (t : GoVal (.ptr Message.templateAttribute)) (tag : Tag) : List Attribute :=
  templateGetAll t (reg.formatTag tag)

/-! ## What the lookups select -/

variable (entries : List (Tag × GoVal .iface)) (tag : Tag)

/-- The attribute of a call of `Append`. -/
def entryAttribute (e : Tag × GoVal .iface) : Attribute := newAttributeFromTag reg e.1 0 e.2

/-- The attributes appended under a tag, in order. -/
def appendedUnder : List Attribute := (entries.filter fun e => e.1 = tag).map (entryAttribute reg)

theorem attributeName_entryAttribute (e : Tag × GoVal .iface) :
    attributeName (entryAttribute reg e) = reg.formatTagCanonical e.1 := rfl

theorem templateGetAllTag_appendAll :
    templateGetAllTag reg (.ptr (appendAll reg entries)) tag =
      (entries.filter fun e => reg.formatTagCanonical e.1 = reg.formatTag tag).map (entryAttribute reg) := by
  rw [templateGetAllTag, templateGetAll]
  show (attributes (appendAll reg entries)).filter _ = _
  rw [attributes_appendAll, List.filter_map]
  rfl

/-- `GetTag` is the first of what `GetAllTag` returns. -/
theorem templateGetTag_eq_head? :
    templateGetTag reg (.ptr (appendAll reg entries)) tag =
      (templateGetAllTag reg (.ptr (appendAll reg entries)) tag).head? := by
  rw [templateGetTag, templateGet, templateGetAllTag, templateGetAll]
  show List.find? _ (attributes (appendAll reg entries)) =
    ((attributes (appendAll reg entries)).filter _).head?
  rw [List.head?_filter]

/-- Every appended attribute has the index 0. -/
theorem templateGetTagIdx_appendAll (idx : BitVec 64) :
    templateGetTagIdx reg (.ptr (appendAll reg entries)) tag idx =
      if idx = 0 then templateGetTag reg (.ptr (appendAll reg entries)) tag else none := by
  rw [templateGetTagIdx, templateGetIdx, templateGetTag, templateGet]
  show (attributes (appendAll reg entries)).find? _ =
    if idx = 0 then (attributes (appendAll reg entries)).find? _ else none
  rw [attributes_appendAll]
  by_cases hidx : idx = 0
  · subst hidx
    rw [if_pos rfl, List.find?_map, List.find?_map]
    congr 2
    funext e
    exact decide_eq_decide.mpr (and_iff_left rfl)
  · rw [if_neg hidx, List.find?_eq_none]
    intro a ha
    obtain ⟨e, -, rfl⟩ := List.mem_map.mp ha
    intro hboth
    exact hidx (of_decide_eq_true hboth).2.symm

/-! ## Lookups by tag -/

/-- What is asked of the lookups by tag on the list that the calls of `Append` build. -/
structure FoundByTag : Prop where
  all : ∀ tag, templateGetAllTag reg (.ptr (appendAll reg entries)) tag = appendedUnder reg entries tag
  first : ∀ tag, templateGetTag reg (.ptr (appendAll reg entries)) tag = (appendedUnder reg entries tag).head?
  nil_iff : ∀ tag, templateGetTag reg (.ptr (appendAll reg entries)) tag = none ↔ ∀ e ∈ entries, e.1 ≠ tag
  zero : ∀ tag, templateGetTagIdx reg (.ptr (appendAll reg entries)) tag 0 =
    templateGetTag reg (.ptr (appendAll reg entries)) tag
  own : ∀ tag a, (a ∈ templateGetAllTag reg (.ptr (appendAll reg entries)) tag ∨
    templateGetTag reg (.ptr (appendAll reg entries)) tag = some a ∨
    ∃ idx, templateGetTagIdx reg (.ptr (appendAll reg entries)) tag idx = some a) →
      ∃ e ∈ entries, e.1 = tag ∧ a = entryAttribute reg e

variable {reg entries}

/-- All else follows from what `GetAllTag` returns. -/
theorem foundByTag_of_all
    (h : ∀ tag, templateGetAllTag reg (.ptr (appendAll reg entries)) tag = appendedUnder reg entries tag) :
    FoundByTag reg entries := by
  have hfirst : ∀ tag, templateGetTag reg (.ptr (appendAll reg entries)) tag =
      (appendedUnder reg entries tag).head? := by
    intro tag
    rw [templateGetTag_eq_head?, h]
  have hmem : ∀ tag a, a ∈ appendedUnder reg entries tag →
      ∃ e ∈ entries, e.1 = tag ∧ a = entryAttribute reg e := by
    intro tag a ha
    obtain ⟨e, he, rfl⟩ := List.mem_map.mp ha
    rw [List.mem_filter] at he
    exact ⟨e, he.1, of_decide_eq_true he.2, rfl⟩
  refine ⟨h, hfirst, ?_, ?_, ?_⟩
  · intro tag
    rw [hfirst, List.head?_eq_none_iff, appendedUnder, List.map_eq_nil_iff, List.filter_eq_nil_iff]
    simp only [decide_eq_true_eq, ne_eq]
  · intro tag
    rw [templateGetTagIdx_appendAll, if_pos rfl]
  · intro tag a ha
    rcases ha with hall | hone | ⟨idx, hidx⟩
    · rw [h] at hall
      exact hmem tag a hall
    · rw [hfirst] at hone
      exact hmem tag a (List.mem_of_head? hone)
    · rw [templateGetTagIdx_appendAll] at hidx
      split at hidx
      · rw [hfirst] at hidx
        exact hmem tag a (List.mem_of_head? hidx)
      · cases hidx

/-- The canonical name of every appended tag is the normalized name of that tag, and of no other one. -/
def NamesAgree (reg : Registry) (entries : List (Tag × GoVal .iface)) : Prop :=
  ∀ e ∈ entries, ∀ tag, reg.formatTagCanonical e.1 = reg.formatTag tag ↔ e.1 = tag

theorem NamesAgree.all (h : NamesAgree reg entries) (tag : Tag) :
    templateGetAllTag reg (.ptr (appendAll reg entries)) tag = appendedUnder reg entries tag := by
  rw [templateGetAllTag_appendAll, appendedUnder]
  congr 1
  apply List.filter_congr
  intro e he
  exact decide_eq_decide.mpr (h e he tag)

/-- If the lookups find what was appended, then by the names of what they find the names agree. -/
theorem FoundByTag.namesAgree (h : FoundByTag reg entries) : NamesAgree reg entries := by
  -- a tag with an entry: the lookup returns it, so the two names of the tag are the same
  have hown : ∀ e ∈ entries, reg.formatTagCanonical e.1 = reg.formatTag e.1 := by
    intro e he
    have hmem : entryAttribute reg e ∈ appendedUnder reg entries e.1 :=
      List.mem_map_of_mem (List.mem_filter.mpr ⟨he, decide_eq_true rfl⟩)
    rw [← h.all, templateGetAllTag_appendAll] at hmem
    obtain ⟨e', he', hsame⟩ := List.mem_map.mp hmem
    rw [List.mem_filter] at he'
    have hname := of_decide_eq_true he'.2
    rw [← attributeName_entryAttribute, hsame, attributeName_entryAttribute] at hname
    exact hname
  intro e he tag
  constructor
  · intro hname
    -- what is appended under `tag` is among what the lookup returns, and there are as many of both
    have hsub : ((entries.filter fun e => reg.formatTagCanonical e.1 = reg.formatTag tag).filter fun e => e.1 = tag) =
        entries.filter fun e => e.1 = tag := by
      rw [List.filter_filter]
      apply List.filter_congr
      intro e' he'
      by_cases htag : e'.1 = tag
      · rw [decide_eq_true htag, Bool.true_and, decide_eq_true_iff, ← htag]
        exact hown e' he'
      · rw [decide_eq_false htag, Bool.false_and]
    have hlen := congrArg List.length (h.all tag)
    rw [templateGetAllTag_appendAll, appendedUnder, List.length_map, List.length_map, ← hsub] at hlen
    have hevery := List.length_filter_eq_length_iff.mp hlen.symm
    exact of_decide_eq_true (hevery e (List.mem_filter.mpr ⟨he, decide_eq_true hname⟩))
  · intro htag
    rw [← htag]
    exact hown e he

variable (reg entries)

/-- Attributes appended by tag are found by tag iff the canonical names of the tags are their normalized
    names, and of no other tags; that is all if no two tags have one normalized name. -/
theorem foundByTag_iff :
    (FoundByTag reg entries ↔ NamesAgree reg entries) ∧
    ((∀ t u, reg.formatTag t = reg.formatTag u → t = u) →
      (FoundByTag reg entries ↔ ∀ e ∈ entries, reg.formatTagCanonical e.1 = reg.formatTag e.1)) := by
  have hiff : FoundByTag reg entries ↔ NamesAgree reg entries :=
    ⟨FoundByTag.namesAgree, fun h => foundByTag_of_all h.all⟩
  refine ⟨hiff, fun hdistinct => hiff.trans ?_⟩
  constructor
  · intro h e he
    exact (h e he e.1).mpr rfl
  · intro h e he tag
    rw [h e he]
    exact ⟨hdistinct e.1 tag, fun htag => by rw [htag]⟩

end

/-- A text as the value of an attribute. -/
def textValue (s : GoString) : GoVal .iface := .iface (.scalar (s := .string (lit "string")) s)

theorem tags_registerTags (r : Registry) (tags : List (Tag × String)) :
    (Message.registerTags r tags).tags = r.tags.register id (tags.map fun t => (t.1, lit t.2)) := by
  rw [Message.registerTags]
  induction tags generalizing r with
  | nil => rfl
  | cons t tags ih => exact ih (r.registerTag id t.1 (lit t.2))

theorem handlerTags_consistent : handlerRegistry.tags.Consistent id :=
  ⟨_, by decide +kernel, Or.inl (tags_registerTags Registry.empty _)⟩

/-- A name of one word. -/
theorem foundByTag_name :
    (∀ t u, handlerRegistry.formatTag t = handlerRegistry.formatTag u → t = u) ∧
      FoundByTag handlerRegistry [(0x420053, textValue (lit "k"))] := by
  have hdistinct : ∀ t u, handlerRegistry.formatTag t = handlerRegistry.formatTag u → t = u :=
    fun t u heq => handlerTags_consistent.formatTag_injective heq
  refine ⟨hdistinct, ((foundByTag_iff handlerRegistry _).2 hdistinct).mpr ?_⟩
  intro e he
  rw [List.mem_singleton] at he
  subst he
  decide +kernel

/-- An identifier that was appended is not found. -/
theorem foundByTag_lost :
    templateGetAllTag handlerRegistry (.ptr (appendAll handlerRegistry
      [(tagUniqueIdentifier, textValue (lit "k"))])) tagUniqueIdentifier = [] ∧
    ¬ FoundByTag handlerRegistry [(tagUniqueIdentifier, textValue (lit "k"))] := by
  have hnames : handlerRegistry.formatTagCanonical tagUniqueIdentifier ≠
      handlerRegistry.formatTag tagUniqueIdentifier := by decide +kernel
  -- the name has blanks, which the lookup by tag takes out of what it looks for
  refine ⟨?_, fun h => hnames ((h.namesAgree _ (List.mem_singleton_self _) _).mpr rfl)⟩
  rw [templateGetAllTag_appendAll, List.filter_cons_of_neg (by simpa using hnames), List.filter_nil, List.map_nil]

end KmipGo.Server
