import KmipGo.Registry.Names
import KmipGo.Ttlv.Header
import Mathlib.Data.List.AList
import Mathlib.Data.List.Sort

/-! # Enumerations and the registry

`Enum` and `Registry` of `ttlv/registry.go`.  A Go map is an association list
with distinct keys; a nil map and an empty one behave alike under lookup.
-/

namespace KmipGo.Reg

open KmipGo.Lib KmipGo.Ttlv

structure Enum where
  valuesToName : AList fun _ : BitVec 32 => GoString
  valuesToCanonicalName : AList fun _ : BitVec 32 => GoString
  nameToValue : AList fun _ : GoString => BitVec 32
  canonicalNamesToValue : AList fun _ : GoString => BitVec 32
  bitMask : Bool

def newEnum : Enum := ⟨∅, ∅, ∅, ∅, false⟩

def newBitmask : Enum := ⟨∅, ∅, ∅, ∅, true⟩

namespace Enum

/-- `RegisterValue`. -/
def registerValue (title : Bytes → Bytes) (e : Enum) (v : BitVec 32) (name : GoString) : Enum :=
  { e with
    valuesToName := e.valuesToName.insert v (normalizeName title name)
    nameToValue := e.nameToValue.insert (normalizeName title name) v
    valuesToCanonicalName := e.valuesToCanonicalName.insert v name
    canonicalNamesToValue := e.canonicalNamesToValue.insert name v }

def name (e : Enum) (v : BitVec 32) : Option GoString := e.valuesToName.lookup v

def canonicalName (e : Enum) (v : BitVec 32) : Option GoString := e.valuesToCanonicalName.lookup v

/-- `Value`: a normalized name, or else a canonical one. -/
def value (e : Enum) (name : GoString) : Option (BitVec 32) :=
  match e.nameToValue.lookup name with
  | some v => some v
  | none => e.canonicalNamesToValue.lookup name

/-- `Values`, in ascending order. -/
def values (e : Enum) : List (BitVec 32) :=
  e.valuesToName.keys.insertionSort fun a b => a.toNat ≤ b.toNat

theorem mem_values {e : Enum} {v : BitVec 32} : v ∈ e.values ↔ ∃ s, e.name v = some s := by
  rw [values, List.mem_insertionSort, ← AList.mem_keys, ← AList.lookup_isSome, Option.isSome_iff_exists]
  rfl

/-- The keys of a map are distinct, so a sorted listing of them is strictly ascending. -/
theorem values_ascending (e : Enum) : e.values.Pairwise fun a b => a.toNat < b.toNat := by
  have hsorted : e.values.Pairwise fun a b : BitVec 32 => a.toNat ≤ b.toNat :=
    List.pairwise_insertionSort _ _
  have hnodup : e.values.Nodup := (List.perm_insertionSort _ _).nodup_iff.mpr e.valuesToName.keys_nodup
  apply (hsorted.and hnodup).imp
  rintro a b ⟨hle, hne⟩
  apply Nat.lt_of_le_of_ne hle
  intro heq
  exact hne (BitVec.eq_of_toNat_eq heq)

end Enum

structure Registry where
  enums : AList fun _ : Tag => Enum
  tags : Enum
  types : Enum

namespace Registry

def empty : Registry := ⟨∅, newEnum, newEnum⟩

def registerType (title : Bytes → Bytes) (r : Registry) (t : BitVec 32) (name : GoString) : Registry :=
  { r with types := r.types.registerValue title t name }

def registerTag (title : Bytes → Bytes) (r : Registry) (t : Tag) (name : GoString) : Registry :=
  { r with tags := r.tags.registerValue title t name }

def registerEnum (r : Registry) (t : Tag) (e : Enum) : Registry :=
  { r with enums := r.enums.insert t e }

/-- `EnumForTag`; nil when nothing is registered for the tag. -/
def enumForTag (r : Registry) (t : Tag) : Option Enum := r.enums.lookup t

end Registry

end KmipGo.Reg
