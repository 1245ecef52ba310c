import KmipGo.Server.Handlers

/-! # The ID placeholder

`Request.IDPlaceholder` while the items of a batch are handled in order.

* `Follows` — after each item the placeholder is the unique identifier in the
  response payload of the last successful Create or Register.
* `followsStep_iff` — what one call has to satisfy, and `placeholder_follows_iff` —
  what a batch has to: every response of Create has its identifier also as an
  attribute, under the name that `GetTag` looks for.
* `create_panics` — `TemplateAttribute.Append` uses another name, so for the
  attribute lists it builds, and for a missing one, Create panics.
-/

namespace KmipGo.Server

open KmipGo.Lib KmipGo.Ttlv KmipGo.Reg KmipGo.Go KmipGo.Encoder KmipGo.Decoder

section

variable (reg : Registry) (texts : Texts) {κ : Type} (handlers : BitVec 32 → Option (Handler κ))
  (errorHandler : Option ErrorHandler) (req : Request)

/-! ## The rule, and when it holds -/

/-- The unique identifier of a value that is a response payload of Create or Register. -/
def identifierOf {ty : GoType} (v : GoVal ty) : Option GoString :=
  if h : ty = Message.createResponsePayload then some (createdIdentifier (h ▸ v))
  else if h : ty = Message.registerResponsePayload then some (registeredIdentifier (h ▸ v))
  else none

/-- The unique identifier in the response payload of an item. -/
def payloadIdentifier : {ty : GoType} → GoVal ty → Option GoString
  | _, .iface (t := .ptr _) (.ptr v) => identifierOf v
  | _, _ => none

/-- The unique identifier of the object that an item has created: the item is one for Create or
    Register, and its handler has returned a response. -/
def createdBy : Handler κ → HandlerResult → Option GoString
  | .builtIn (.create _), .ok item | .builtIn (.register _ _), .ok item =>
    payloadIdentifier item.responsePayload
  | _, _ => none

/-- A panic on the item does not come from the attribute list of a response: no response payload of Create
    was there. -/
def PanicElsewhere (st : HandlerState κ) (h : Handler κ) (i : RequestBatchItem) : Prop :=
  match h with
  | .builtIn (.create f) => (payloadOf reg Message.createRequestPayload i).2 = .ok () →
      ∀ resp app, f st.application (payloadOf reg Message.createRequestPayload i).1 ≠ (.ok resp, app)
  | _ => True

/-- The rule for one item, whose handler ends with `r` and the placeholder `id'`: neither the handler nor
    `bi` panics because of a response, and the placeholder is set to the identifier of the object that is
    created, if one is; otherwise it is still `id`. -/
def StepRule (id : GoString) (st : HandlerState κ) (h : Handler κ) (i : RequestBatchItem) (r : HandlerResult)
    (id' : GoString) : Prop :=
  (itemOf errorHandler r = none → PanicElsewhere reg st h i) ∧
    (r ≠ .panic → id' = (createdBy h r).getD id)

def FollowsStep (id : GoString) (st : HandlerState κ) (h : Handler κ) (i : RequestBatchItem) : Prop :=
  StepRule reg errorHandler id st h i (h.handleItem reg texts st req i).1
    (h.handleItem reg texts st req i).2.idPlaceholder

/-- While the items are handled in order, the ID placeholder is after each of them the unique
    identifier in the response payload of the last successful Create or Register, which is `id` to begin
    with. -/
def Follows : GoString → List RequestBatchItem → HandlerState κ → Prop
  | _, [], _ => True
  | id, i :: rest, st =>
    match handlers (operation i) with
    | none => ∀ item st', (muxOf reg texts handlers errorHandler).bi st req i = (some item, st') →
        Follows id rest st'
    | some h => FollowsStep reg texts errorHandler req id st h i ∧
        ∀ item st', (muxOf reg texts handlers errorHandler).bi st req i = (some item, st') →
          Follows ((createdBy h (h.handleItem reg texts st req i).1).getD id) rest st'

/-- The identifier of a response of Create is found where the handler looks for it. -/
def CarriesIdentifier (st : HandlerState κ) (resp : GoVal Message.createResponsePayload) : Prop :=
  match templateGetTag reg (createdAttributes resp) tagUniqueIdentifier with
  | none => False
  | some idAttr =>
    match asString (attributeValue idAttr) with
    | some id => id = createdIdentifier resp
    -- the item fails, and the placeholder is cleared
    | none => st.idPlaceholder = [] ∧ (errorHandler.getD defaultErrorHandler) (mistypedError texts idAttr) ≠ none

/-- The response of the application to an item for Create carries its identifier, and the handlers of
    other packages do not change the placeholder. -/
def Regular (st : HandlerState κ) : Handler κ → RequestBatchItem → Prop
  | .builtIn (.create f), i =>
    (payloadOf reg Message.createRequestPayload i).2 = .ok () →
      ∀ resp app, f st.application (payloadOf reg Message.createRequestPayload i).1 = (.ok resp, app) →
        CarriesIdentifier reg texts errorHandler st resp
  | .builtIn _, _ => True
  | .other run, i =>
    (run st.application req i).1 ≠ .panic →
      (run st.application req i).2.1.getD st.idPlaceholder = st.idPlaceholder

theorem payloadIdentifier_created (resp : GoVal Message.createResponsePayload) :
    payloadIdentifier (payloadItem (.iface (.ptr resp))).responsePayload = some (createdIdentifier resp) := by
  show identifierOf resp = _
  rw [identifierOf, dif_pos rfl]

theorem payloadIdentifier_registered (resp : GoVal Message.registerResponsePayload) :
    payloadIdentifier (payloadItem (.iface (.ptr resp))).responsePayload =
      some (registeredIdentifier resp) := by
  have hne : Message.registerResponsePayload ≠ Message.createResponsePayload := by
    intro h
    injection h with hname
    exact absurd hname (by decide)
  show identifierOf resp = _
  rw [identifierOf, dif_neg hne, dif_pos rfl]

theorem createdBy_err (h : Handler κ) (err : ItemError) : createdBy h (.err err) = none := by
  cases h with
  | builtIn b => cases b <;> rfl
  | other run => rfl

/-- An end with the placeholder as it was, and without an object created, follows the rule. -/
theorem stepRule_of_same {st : HandlerState κ} {h : Handler κ} {i : RequestBatchItem} {r : HandlerResult}
    (hcreated : createdBy h r = none) (helsewhere : PanicElsewhere reg st h i) :
    StepRule reg errorHandler st.idPlaceholder st h i r st.idPlaceholder := by
  refine ⟨fun _ => helsewhere, fun _ => ?_⟩
  rw [hcreated]
  rfl

/-- For Create the condition is about the response of the application. -/
theorem regular_create {st : HandlerState κ} {i : RequestBatchItem} {f} {resp} {app : κ}
    (hok : (payloadOf reg Message.createRequestPayload i).2 = .ok ())
    (hf : f st.application (payloadOf reg Message.createRequestPayload i).1 = (.ok resp, app)) :
    Regular reg texts errorHandler req st (.builtIn (.create f)) i ↔
      CarriesIdentifier reg texts errorHandler st resp := by
  constructor
  · intro h
    exact h hok resp app hf
  · intro h _ resp' app' hf'
    rw [hf] at hf'
    cases hf'
    exact h

/-- Where no response of Create is there, both the rule and the condition hold. -/
theorem stepRule_iff_of_elsewhere {st : HandlerState κ} {b : BuiltIn κ} {i : RequestBatchItem} {r : HandlerResult}
    (hcreated : createdBy (.builtIn b) r = none) (helsewhere : PanicElsewhere reg st (.builtIn b) i) :
    StepRule reg errorHandler st.idPlaceholder st (.builtIn b) i r st.idPlaceholder ↔
      Regular reg texts errorHandler req st (.builtIn b) i := by
  refine iff_of_true (stepRule_of_same reg errorHandler hcreated helsewhere) ?_
  cases b with
  | create f => exact fun hok resp app hf => absurd hf (helsewhere hok resp app)
  | _ => trivial

/-- The rule for a call of a built-in handler, by the ways it may end. -/
theorem Ends.follows_iff {st : HandlerState κ} {b : BuiltIn κ} {i : RequestBatchItem} {r : HandlerResult}
    {id : GoString} (hends : Ends reg texts st i b r id) :
    StepRule reg errorHandler st.idPlaceholder st (.builtIn b) i r id ↔
      Regular reg texts errorHandler req st (.builtIn b) i := by
  cases hends with
  | rejected hrejected =>
    have hcreated : createdBy (.builtIn b) r = none := by
      obtain ⟨e, msg, -, rfl⟩ | ⟨-, rfl⟩ := hrejected
      · exact createdBy_err _ _
      · cases b <;> rfl
    refine stepRule_iff_of_elsewhere reg texts errorHandler req hcreated ?_
    cases b with
    | create f => exact fun hok => absurd hok (Rejected.not_ok reg hrejected)
    | _ => trivial
  | failed hok hfails =>
    refine stepRule_iff_of_elsewhere reg texts errorHandler req (createdBy_err _ _) ?_
    cases b with
    | create f =>
      obtain ⟨app, hf⟩ := hfails
      intro _ resp app' hf'
      cases hf.symm.trans hf'
    | _ => trivial
  | forwarded hok hb item =>
    cases b with
    | create f => exact absurd hb id
    | register skip f => exact absurd hb id
    | _ => exact stepRule_iff_of_elsewhere reg texts errorHandler req rfl trivial
  | invalid hok msg => exact stepRule_iff_of_elsewhere reg texts errorHandler req (createdBy_err _ _) trivial
  | registered hok resp =>
    refine iff_of_true ⟨fun h => (by cases h), fun _ => ?_⟩ trivial
    rw [createdBy, payloadIdentifier_registered]
    rfl
  | @created f hok resp app hf idAttr ha id hid =>
    rw [regular_create reg texts errorHandler req hok hf, CarriesIdentifier, ha, StepRule]
    simp only [hid]
    rw [createdBy, payloadIdentifier_created]
    simp [itemOf]
  | @mistyped f hok resp app hf idAttr ha hid =>
    -- the placeholder is empty afterwards, and had to be before; and the error has to be converted
    rw [regular_create reg texts errorHandler req hok hf, CarriesIdentifier, ha, StepRule, createdBy_err]
    simp only [hid]
    have hresponse : ¬ PanicElsewhere reg st (.builtIn (.create f)) i := fun h => h hok resp app hf
    simp only [hresponse, imp_false, itemOf, Option.getD_none]
    constructor
    · rintro ⟨hconverts, hsame⟩
      exact ⟨(hsame (by simp)).symm, hconverts⟩
    · rintro ⟨hempty, hconverts⟩
      exact ⟨hconverts, fun _ => hempty.symm⟩
  | @unnamed f hok resp app hf ha =>
    rw [regular_create reg texts errorHandler req hok hf, CarriesIdentifier, ha]
    exact iff_of_false (fun h => h.1 rfl hok resp app hf) id

theorem followsStep_iff (st : HandlerState κ) (h : Handler κ) (i : RequestBatchItem) :
    FollowsStep reg texts errorHandler req st.idPlaceholder st h i ↔ Regular reg texts errorHandler req st h i := by
  cases h with
  | builtIn b => exact (ends_handleItem reg texts b st req i).follows_iff reg texts errorHandler req
  | other run =>
    constructor
    · intro h hr
      exact h.2 hr
    · intro h
      exact ⟨fun _ => trivial, h⟩

/-- The ID placeholder follows the objects that are created, in every batch and for every behaviour of the
    application, if and only if each response to an item for Create carries its identifier as the attribute
    that the handler looks up, and no other handler changes the placeholder. -/
theorem placeholder_follows_iff (items : List RequestBatchItem) (st : HandlerState κ) :
    Follows reg texts handlers errorHandler req st.idPlaceholder items st ↔
      Along reg texts handlers errorHandler req (Regular reg texts errorHandler req) items st := by
  induction items generalizing st with
  | nil => exact Iff.rfl
  | cons i rest ih =>
    rw [Follows, Along]
    obtain ⟨hnone, hbi⟩ | ⟨h, hsome, hbi⟩ := bi_muxOf reg texts handlers errorHandler req st i
    · simp only [hnone, hbi, reduceCtorEq, false_implies, implies_true, true_and]
      refine forall₂_congr fun item st' => forall_congr' fun hrun => ?_
      cases hrun
      exact ih st
    · simp only [hsome, Option.some.injEq, forall_eq']
      rw [← followsStep_iff reg texts errorHandler req st h i]
      refine and_congr_right fun hstep => forall₂_congr fun item st' => forall_congr' fun hrun => ?_
      -- the handler has returned, so the placeholder is the identifier so far
      rw [hbi] at hrun
      obtain ⟨hitem, rfl⟩ := Prod.mk.inj hrun
      have hreturns : (h.handleItem reg texts st req i).1 ≠ .panic := by
        intro hpanic
        rw [hpanic] at hitem
        cases hitem
      rw [← hstep.2 hreturns]
      exact ih _

theorem not_follows_of_panic {handlers : BitVec 32 → Option (Handler κ)} {h : Handler κ}
    {i : RequestBatchItem} (hh : handlers (operation i) = some h) {st : HandlerState κ}
    (hpanic : itemOf errorHandler (h.handleItem reg texts st req i).1 = none)
    (hown : ¬ PanicElsewhere reg st h i) (id : GoString)
    (rest : List RequestBatchItem) : ¬ Follows reg texts handlers errorHandler req id (i :: rest) st := by
  intro hfollows
  rw [Follows, hh] at hfollows
  exact hown (hfollows.1.1 hpanic)

end

/-! ## Attribute lists built with `Append` -/

theorem elemList_append {e : GoType} : ∀ vs ws : GoVals e, elemList (vs.append ws) = elemList vs ++ elemList ws
  | .nil, _ => rfl
  | .cons v vs, ws => congrArg (v :: ·) (elemList_append vs ws)

theorem attributes_templateAppend (reg : Registry) (t : TemplateAttribute) (tag : Tag) (value : GoVal .iface) :
    attributes (templateAppend reg t tag value) = attributes t ++ [newAttributeFromTag reg tag 0 value] :=
  elemList_append _ _

/-- `Append` names an attribute by the canonical name of its tag. -/
theorem attributes_appendAll (reg : Registry) (entries : List (Tag × GoVal .iface)) :
    attributes (appendAll reg entries) = entries.map fun e => newAttributeFromTag reg e.1 0 e.2 := by
  have hfold : ∀ (es : List (Tag × GoVal .iface)) (t : TemplateAttribute),
      attributes (es.foldl (fun t e => templateAppend reg t e.1 e.2) t) =
        attributes t ++ es.map fun e => newAttributeFromTag reg e.1 0 e.2 := by
    intro es
    induction es with
    | nil => intro t; simp
    | cons e es ih =>
      intro t
      rw [List.foldl_cons, ih, attributes_templateAppend, List.map_cons, List.append_assoc,
        List.singleton_append]
  exact hfold entries _

/-- `GetTag` looks for the normalized name: it finds nothing in a list built with `Append` when that
    name is not the canonical name of a tag in the list. -/
theorem templateGetTag_appendAll {reg : Registry} {tag : Tag} {entries : List (Tag × GoVal .iface)}
    (h : ∀ e ∈ entries, reg.formatTagCanonical e.1 ≠ reg.formatTag tag) :
    templateGetTag reg (.ptr (appendAll reg entries)) tag = none := by
  show (attributes (appendAll reg entries)).find? _ = none
  rw [attributes_appendAll, List.find?_eq_none]
  intro a ha
  obtain ⟨e, he, rfl⟩ := List.mem_map.mp ha
  exact fun heq => h e he (of_decide_eq_true heq)

/-- Create panics on every success if the response has no attribute list, or one built with `Append`
    from tags whose canonical names are not the normalized name of the identifier. -/
theorem create_panics (reg : Registry) (texts : Texts) {κ : Type} {f : Callback κ _ _} {st : HandlerState κ}
    {i : RequestBatchItem} {resp : GoVal Message.createResponsePayload} {app : κ}
    (hok : (payloadOf reg Message.createRequestPayload i).2 = .ok ())
    (hf : f st.application (payloadOf reg Message.createRequestPayload i).1 = (.ok resp, app))
    (hattrs : createdAttributes resp = .ptrNil ∨ ∃ entries, createdAttributes resp = .ptr (appendAll reg entries) ∧
      ∀ e ∈ entries, reg.formatTagCanonical e.1 ≠ reg.formatTag tagUniqueIdentifier) (req : Request) :
    (createHandler reg texts f st req i).1 = .panic := by
  have hnone : templateGetTag reg (createdAttributes resp) tagUniqueIdentifier = none := by
    obtain hnil | ⟨entries, happend, hnames⟩ := hattrs
    · rw [hnil]
      rfl
    · rw [happend]
      exact templateGetTag_appendAll hnames
  refine withPayload_of_ok reg texts (P := fun r => r.1 = .panic) hok fun dec => ?_
  simp only [withResponse, hf, hnone]

/-! ## An object that is created -/

/-- A request payload of Create. -/
def createPayload : TTLV := item 0x420079 .Structure (Prim.item 0x420057 (.enumeration 2))

/-- The response to it, with the identifier `key-1`. -/
def createdPayload (attrs : GoVal (.ptr Message.templateAttribute)) : GoVal Message.createResponsePayload :=
  .struct (.cons (.scalar 2) (.cons (.scalar (lit "key-1")) (.cons attrs .nil)))

def createOnly (attrs : GoVal (.ptr Message.templateAttribute)) : BitVec 32 → Option (Handler Unit) :=
  fun op => if op = 1 then some (.builtIn (.create fun app _ => (.ok (createdPayload attrs), app))) else none

/-- The attribute list with the identifier, built with `Append`. -/
def keyAttributes : TemplateAttribute :=
  appendAll handlerRegistry [(tagUniqueIdentifier, .iface (.scalar (s := .string (lit "string")) (lit "key-1")))]

/-- Create panics on a response without an attribute list, and also on one whose identifier is appended
    to the list. -/
theorem placeholder_lost :
    createdIdentifier (createdPayload .ptrNil) = lit "key-1" ∧
    (attributes keyAttributes).map attributeName = [lit "Unique Identifier"] ∧
    ¬ Follows handlerRegistry noTexts (createOnly .ptrNil) none (Request.ofTTLV []) []
      [batchItem 1 createPayload] ⟨[], newDecoder, ()⟩ ∧
    ¬ Follows handlerRegistry noTexts (createOnly (.ptr keyAttributes)) none (Request.ofTTLV []) []
      [batchItem 1 createPayload] ⟨[], newDecoder, ()⟩ := by
  have hok : (payloadOf handlerRegistry Message.createRequestPayload (batchItem 1 createPayload)).2 = .ok () := by
    decide +kernel
  have hnames : handlerRegistry.formatTagCanonical tagUniqueIdentifier ≠
      handlerRegistry.formatTag tagUniqueIdentifier := by
    decide +kernel
  have hpanics : ∀ attrs, (attrs = .ptrNil ∨ attrs = .ptr keyAttributes) →
      ¬ Follows handlerRegistry noTexts (createOnly attrs) none (Request.ofTTLV []) []
        [batchItem 1 createPayload] ⟨[], newDecoder, ()⟩ := by
    intro attrs hattrs
    have hpanic : ∀ req, (createHandler handlerRegistry noTexts (fun app _ => (.ok (createdPayload attrs), app))
        ⟨[], newDecoder, ()⟩ req (batchItem 1 createPayload)).1 = .panic := by
      intro req
      refine create_panics handlerRegistry noTexts hok rfl ?_ _
      cases hattrs with
      | inl hnil => exact Or.inl hnil
      | inr happend =>
        refine Or.inr ⟨_, happend, fun e he => ?_⟩
        rw [List.mem_singleton.mp he]
        exact hnames
    refine not_follows_of_panic handlerRegistry noTexts none _ rfl ?_ ?_ [] []
    · exact congrArg (itemOf none) (hpanic _)
    · exact fun helsewhere => helsewhere hok _ _ rfl
  exact ⟨rfl, by decide +kernel, hpanics _ (Or.inl rfl), hpanics _ (Or.inr rfl)⟩

end KmipGo.Server
