import KmipGo.Go.TypeInfo

/-! # Message types

The request and response messages of `types_messages.go`, with the types of
their fields from `types.go`, `base_objects.go` and the generated enumerations,
as struct types that the encoder and the decoder work on.
-/

namespace KmipGo.Message

open KmipGo.Lib KmipGo.Ttlv KmipGo.Reg KmipGo.Go

def field (name : String) (ty : GoType) (rest : Fields) : Fields :=
  .cons ⟨lit name, [], false, false⟩ ty rest

/-- A field with the struct tag `ttlv:",omitempty"`. -/
def fieldOmitempty (name : String) (ty : GoType) (rest : Fields) : Fields :=
  .cons ⟨lit name, lit ",omitempty", false, false⟩ ty rest

def intType : GoType := .scalar (.int (lit "int") .int)
def stringType : GoType := .scalar (.string (lit "string"))
def boolType : GoType := .scalar (.bool (lit "bool"))
def bytesType : GoType := .scalar (.bytes [])
def timeType : GoType := .scalar .time

/-- A generated enumeration type. -/
def enumType (name : String) : GoType := .scalar (.enum (lit name) false)

def protocolVersion : GoType :=
  .struct (lit "ProtocolVersion")
    (field "ProtocolVersionMajor" intType (field "ProtocolVersionMinor" intType .nil))

def messageExtension : GoType :=
  .struct (lit "MessageExtension")
    (field "VendorIdentification" stringType
    (field "CriticalityIndicator" boolType
    (field "VendorExtension" .iface .nil)))

def nonce : GoType :=
  .struct (lit "Nonce") (field "NonceID" bytesType (field "NonceValue" bytesType .nil))

def credential : GoType :=
  .struct (lit "Credential")
    (field "CredentialType" (enumType "CredentialType") (field "CredentialValue" .iface .nil))

def authentication : GoType :=
  .struct (lit "Authentication") (field "Credential" (.slice [] credential) .nil)

def requestHeaderFields : Fields :=
  field "ProtocolVersion" protocolVersion
  (fieldOmitempty "MaximumResponseSize" intType
  (fieldOmitempty "ClientCorrelationValue" stringType
  (fieldOmitempty "ServerCorrelationValue" stringType
  (fieldOmitempty "AsynchronousIndicator" boolType
  (fieldOmitempty "AttestationCapableIndicator" boolType
  (field "AttestationType" (.slice [] (enumType "AttestationType"))
  (field "Authentication" (.ptr authentication)
  (fieldOmitempty "BatchErrorContinuationOption" (enumType "BatchErrorContinuationOption")
  (fieldOmitempty "BatchOrderOption" boolType
  (field "TimeStamp" (.ptr timeType)
  (field "BatchCount" intType .nil)))))))))))

def requestHeader : GoType := .struct (lit "RequestHeader") requestHeaderFields

def requestBatchItem : GoType :=
  .struct (lit "RequestBatchItem")
    (field "Operation" (enumType "Operation")
    (fieldOmitempty "UniqueBatchItemID" bytesType
    (field "RequestPayload" .iface
    (fieldOmitempty "MessageExtension" (.ptr messageExtension) .nil))))

def requestMessage : GoType :=
  .struct (lit "RequestMessage")
    (field "RequestHeader" requestHeader (field "BatchItem" (.slice [] requestBatchItem) .nil))

def responseHeader : GoType :=
  .struct (lit "ResponseHeader")
    (field "ProtocolVersion" protocolVersion
    (field "TimeStamp" timeType
    (field "Nonce" (.ptr nonce)
    (field "AttestationType" (.slice [] (enumType "AttestationType"))
    (fieldOmitempty "ClientCorrelationValue" stringType
    (fieldOmitempty "ServerCorrelationValue" stringType
    (field "BatchCount" intType .nil)))))))

def responseBatchItem : GoType :=
  .struct (lit "ResponseBatchItem")
    (fieldOmitempty "Operation" (enumType "Operation")
    (fieldOmitempty "UniqueBatchItemID" bytesType
    (field "ResultStatus" (enumType "ResultStatus")
    (fieldOmitempty "ResultReason" (enumType "ResultReason")
    (fieldOmitempty "ResultMessage" stringType
    (fieldOmitempty "AsynchronousCorrelationValue" bytesType
    (fieldOmitempty "ResponsePayload" .iface
    (field "MessageExtension" (.ptr messageExtension) .nil))))))))

def responseMessage : GoType :=
  .struct (lit "ResponseMessage")
    (field "ResponseHeader" responseHeader (field "BatchItem" (.slice [] responseBatchItem) .nil))

/-! ## Tags of messages -/

/-- Registers the names of some tags, as `RegisterTag` does for all of them; the words of these names
    are capitalised already. -/
def registerTags (r : Registry) (tags : List (Tag × String)) : Registry :=
  tags.foldl (fun r t => r.registerTag id t.1 (lit t.2)) r

/-- The tags of request messages. -/
def requestRegistry : Registry :=
  registerTags Registry.empty
    [(0x42000d, "BatchCount"), (0x42000f, "BatchItem"), (0x420026, "CriticalityIndicator"),
     (0x420050, "MaximumResponseSize"), (0x420051, "MessageExtension"), (0x42005c, "Operation"),
     (0x420069, "ProtocolVersion"), (0x42006a, "ProtocolVersionMajor"),
     (0x42006b, "ProtocolVersionMinor"), (0x420077, "RequestHeader"), (0x420078, "RequestMessage"),
     (0x420079, "RequestPayload"), (0x420093, "UniqueBatchItemID"), (0x42009c, "VendorExtension"),
     (0x42009d, "VendorIdentification")]

/-- The tags of request and response messages. -/
def messageRegistry : Registry :=
  registerTags requestRegistry
    [(0x420006, "AsynchronousCorrelationValue"), (0x420007, "AsynchronousIndicator"),
     (0x42000c, "Authentication"), (0x42000e, "BatchErrorContinuationOption"),
     (0x420010, "BatchOrderOption"), (0x42007a, "ResponseHeader"), (0x42007b, "ResponseMessage"),
     (0x42007c, "ResponsePayload"), (0x42007d, "ResultMessage"), (0x42007e, "ResultReason"),
     (0x42007f, "ResultStatus"), (0x420092, "TimeStamp"), (0x4200c7, "AttestationType"),
     (0x4200c8, "Nonce"), (0x4200d3, "AttestationCapableIndicator"),
     (0x420105, "ClientCorrelationValue"), (0x420106, "ServerCorrelationValue")]

/-! ## Protocol versions -/

/-- The information on a field without a struct tag and on one with `ttlv:",omitempty"`. -/
def fieldInfo (name : String) (tag : Tag) (ty : GoType) : FieldInfo := ⟨lit name, tagNone, tag, noFlags, ty⟩

def fieldInfoOmitempty (name : String) (tag : Tag) (ty : GoType) : FieldInfo :=
  ⟨lit name, tagNone, tag, { noFlags with omitEmpty := true }, ty⟩

theorem getTypeInfo_protocolVersion : getTypeInfo requestRegistry protocolVersion = .ok
    ⟨0x420069, [.valueField (fieldInfo "ProtocolVersionMajor" 0x42006a intType),
      .valueField (fieldInfo "ProtocolVersionMinor" 0x42006b intType)]⟩ :=
  eq_ok_of_toOption (by decide +kernel)

def version (major minor : BitVec 64) : GoVal protocolVersion :=
  .struct (.cons (.scalar major) (.cons (.scalar minor) .nil))

end KmipGo.Message
