import KmipGo.Message.Types

/-! # Payloads

The Go types of `base_objects.go`, `managed_objects.go`, `attributes.go` and the
`op_*.go` files that the payloads of the operations Create, Get, Destroy,
Register and Discover Versions are made of.
-/

namespace KmipGo.Message

open KmipGo.Lib KmipGo.Ttlv KmipGo.Go

def bigIntPtr : GoType := .ptr (.scalar .bigInt)

/-! ## Base objects -/

def attributeType : GoType :=
  .struct (lit "Attribute")
    (field "AttributeName" stringType
    (fieldOmitempty "AttributeIndex" intType
    (field "AttributeValue" .iface .nil)))

def nameType : GoType :=
  .struct (lit "Name") (field "NameValue" stringType (field "NameType" (enumType "NameType") .nil))

def templateAttribute : GoType :=
  .struct (lit "TemplateAttribute")
    (field "Name" (.slice [] nameType) (field "Attribute" (.slice [] attributeType) .nil))

def cryptographicParameters : GoType :=
  .struct (lit "CryptographicParameters")
    (fieldOmitempty "BlockCipherMode" (enumType "BlockCipherMode")
    (fieldOmitempty "PaddingMethod" (enumType "PaddingMethod")
    (fieldOmitempty "HashingAlgorithm" (enumType "HashingAlgorithm")
    (fieldOmitempty "KeyRoleType" (enumType "KeyRoleType")
    (fieldOmitempty "DigitalSignatureAlgorithm" (enumType "DigitalSignatureAlgorithm")
    (fieldOmitempty "CryptographicAlgorithm" (enumType "CryptographicAlgorithm")
    (fieldOmitempty "RandomIV" boolType
    (fieldOmitempty "IVLength" intType
    (fieldOmitempty "TagLength" intType
    (fieldOmitempty "FixedFieldLength" intType
    (fieldOmitempty "InvocationFieldLength" intType
    (fieldOmitempty "CounterLength" intType
    (fieldOmitempty "InitialCounterValue" intType
    (fieldOmitempty "SaltLength" intType
    (fieldOmitempty "MaskGenerator" (enumType "MaskGenerator")
    (fieldOmitempty "MaskGeneratorHashingAlgorithm" (enumType "HashingAlgorithm")
    (fieldOmitempty "PSource" bytesType
    (fieldOmitempty "TrailerField" intType .nil))))))))))))))))))

/-- `EncryptionKeyInformation` and `MACSignatureKeyInformation`, which have the same fields. -/
def keyInformation (name : String) : GoType :=
  .struct (lit name)
    (field "UniqueIdentifier" stringType
    (field "CryptographicParameters" (.ptr cryptographicParameters) .nil))

def keyWrappingData : GoType :=
  .struct (lit "KeyWrappingData")
    (field "WrappingMethod" (enumType "WrappingMethod")
    (field "EncryptionKeyInformation" (.ptr (keyInformation "EncryptionKeyInformation"))
    (field "MACSignatureKeyInformation" (.ptr (keyInformation "MACSignatureKeyInformation"))
    (field "MACSignature" bytesType
    (field "IVCounterNonce" bytesType
    (fieldOmitempty "EncodingOption" (enumType "EncodingOption") .nil))))))

def keyValue : GoType :=
  .struct (lit "KeyValue")
    (field "KeyMaterial" .iface (field "Attribute" (.slice [] attributeType) .nil))

def keyBlock : GoType :=
  .struct (lit "KeyBlock")
    (field "KeyFormatType" (enumType "KeyFormatType")
    (fieldOmitempty "KeyCompressionType" (enumType "KeyCompressionType")
    (fieldOmitempty "KeyValue" (.ptr keyValue)
    (fieldOmitempty "CryptographicAlgorithm" (enumType "CryptographicAlgorithm")
    (fieldOmitempty "CryptographicLength" intType
    (field "KeyWrappingData" (.ptr keyWrappingData) .nil))))))

/-! ## Managed objects -/

def certificate : GoType :=
  .struct (lit "Certificate")
    (field "CertificateType" (enumType "CertificateType") (field "CertificateValue" bytesType .nil))

/-- `SymmetricKey`, `PublicKey` and `PrivateKey`, which hold a key block. -/
def keyObject (name : String) : GoType := .struct (lit name) (field "KeyBlock" keyBlock .nil)

def splitKey : GoType :=
  .struct (lit "SplitKey")
    (field "SplitKeyParts" intType
    (field "KeyPartIdentifier" intType
    (field "SplitKeyThreshold" intType
    (field "SplitKeyMethod" (enumType "SplitKeyMethod")
    (fieldOmitempty "PrimeFieldSize" bigIntPtr
    (field "KeyBlock" keyBlock .nil))))))

def template : GoType := .struct (lit "Template") (field "Attribute" (.slice [] attributeType) .nil)

def secretData : GoType :=
  .struct (lit "SecretData")
    (field "SecretDataType" (enumType "SecretDataType") (field "KeyBlock" keyBlock .nil))

def opaqueObject : GoType :=
  .struct (lit "OpaqueObject")
    (field "OpaqueDataType" (enumType "OpaqueDataType") (field "OpaqueDataValue" bytesType .nil))

/-! ## Payloads of the operations -/

def createRequestPayload : GoType :=
  .struct (lit "CreateRequestPayload")
    (field "ObjectType" (enumType "ObjectType") (field "TemplateAttribute" templateAttribute .nil))

def createResponsePayload : GoType :=
  .struct (lit "CreateResponsePayload")
    (field "ObjectType" (enumType "ObjectType")
    (field "UniqueIdentifier" stringType
    (field "TemplateAttribute" (.ptr templateAttribute) .nil)))

/-- The objects that Register takes and Get returns. -/
def objectFields : Fields :=
  field "Certificate" (.ptr certificate)
  (field "SymmetricKey" (.ptr (keyObject "SymmetricKey"))
  (field "PrivateKey" (.ptr (keyObject "PrivateKey"))
  (field "PublicKey" (.ptr (keyObject "PublicKey"))
  (field "SplitKey" (.ptr splitKey)
  (field "Template" (.ptr template)
  (field "SecretData" (.ptr secretData)
  (field "OpaqueObject" (.ptr opaqueObject) .nil)))))))

def registerRequestPayload : GoType :=
  .struct (lit "RegisterRequestPayload")
    (field "ObjectType" (enumType "ObjectType") (field "TemplateAttribute" templateAttribute objectFields))

def registerResponsePayload : GoType :=
  .struct (lit "RegisterResponsePayload")
    (field "UniqueIdentifier" stringType (field "TemplateAttribute" templateAttribute .nil))

/-- A payload that holds a unique identifier only. -/
def identifierPayload (name : String) : GoType := .struct (lit name) (field "UniqueIdentifier" stringType .nil)

def getRequestPayload : GoType := identifierPayload "GetRequestPayload"

def getResponsePayload : GoType :=
  .struct (lit "GetResponsePayload")
    (field "ObjectType" (enumType "ObjectType") (field "UniqueIdentifier" stringType objectFields))

def destroyRequestPayload : GoType := identifierPayload "DestroyRequestPayload"
def destroyResponsePayload : GoType := identifierPayload "DestroyResponsePayload"

/-- A payload that holds protocol versions. -/
def versionsPayload (name : String) : GoType :=
  .struct (lit name) (field "ProtocolVersion" (.slice [] protocolVersion) .nil)

def discoverVersionsRequestPayload : GoType := versionsPayload "DiscoverVersionsRequestPayload"
def discoverVersionsResponsePayload : GoType := versionsPayload "DiscoverVersionsResponsePayload"

end KmipGo.Message
