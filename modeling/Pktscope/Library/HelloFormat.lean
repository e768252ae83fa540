import Mathlib.Algebra.GroupWithZero.Nat
import Mathlib.Data.List.Basic
import Pktscope.Library.Folds
import Pktscope.Library.Spans
import Pktscope.Library.Utf8

/-! # The ClientHello on the wire

The handshake message that opens a TLS connection, as a sequence of vectors behind
their lengths. An extension that a reader looks into occurs at most once.
-/

namespace Library

/-- Numbers of two bytes each. -/
def u16Bytes (l : List UInt16) : List UInt8 := l.flatMap toBe16

@[simp] theorem length_u16Bytes (l : List UInt16) : (u16Bytes l).length = 2 * l.length := by
  induction l with
  | nil => rfl
  | cons n l ih =>
    simp only [u16Bytes, List.flatMap_cons, List.length_append, length_toBe16, List.length_cons] at *
    omega

/-- A handshake message in a record of its own. -/
def handshakeRecord (recordVersion : UInt16) (type : UInt8) (body : List UInt8) : List UInt8 :=
  0x16 :: toBe16 recordVersion ++ vec16 (type :: toBe24 body.length ++ body)

inductive HelloExtension where
  | serverName (host : String)
  | supportedGroups (groups : List UInt16)
  | ecPointFormats (formats : List UInt8)
  | signatureAlgorithms (algorithms : List UInt16)
  | alpn (protocols : List String)
  | supportedVersions (versions : List UInt16)
  | other (type : UInt16) (data : List UInt8)

namespace HelloExtension

/-- The types of the extensions that have a meaning here. -/
def knownTypes : List UInt16 := [0x0000, 0x000a, 0x000b, 0x000d, 0x0010, 0x002b]

def type : HelloExtension → UInt16
  | serverName _ => 0x0000
  | supportedGroups _ => 0x000a
  | ecPointFormats _ => 0x000b
  | signatureAlgorithms _ => 0x000d
  | alpn _ => 0x0010
  | supportedVersions _ => 0x002b
  | other type _ => type

def protocolBytes (protocols : List String) : List UInt8 :=
  protocols.flatMap fun p => vec8 (utf8Bytes p)

def data : HelloExtension → List UInt8
  | serverName host => vec16 (0x00 :: vec16 (utf8Bytes host))
  | supportedGroups groups => vec16 (u16Bytes groups)
  | ecPointFormats formats => vec8 formats
  | signatureAlgorithms algorithms => vec16 (u16Bytes algorithms)
  | alpn protocols => vec16 (protocolBytes protocols)
  | supportedVersions versions => vec8 (u16Bytes versions)
  | other _ data => data

/-- Every vector fits into its length, and an unknown extension has a type of its own. -/
def Fits : HelloExtension → Prop
  | ecPointFormats formats => formats.length < 2 ^ 8
  | alpn protocols => ∀ p ∈ protocols, (utf8Bytes p).length < 2 ^ 8
  | supportedVersions versions => 2 * versions.length < 2 ^ 8
  | other type _ => type ∉ knownTypes
  | _ => True

def bytes (e : HelloExtension) : List UInt8 := toBe16 e.type ++ vec16 e.data

def host? : HelloExtension → Option String
  | serverName host => some host
  | _ => none

def groups? : HelloExtension → Option (List UInt16)
  | supportedGroups groups => some groups
  | _ => none

def formats? : HelloExtension → Option (List UInt8)
  | ecPointFormats formats => some formats
  | _ => none

def algorithms? : HelloExtension → Option (List UInt16)
  | signatureAlgorithms algorithms => some algorithms
  | _ => none

def protocols? : HelloExtension → Option (List String)
  | alpn protocols => some protocols
  | _ => none

def versions? : HelloExtension → Option (List UInt16)
  | supportedVersions versions => some versions
  | _ => none

end HelloExtension

open HelloExtension

/-- A ClientHello whose parts fit into their lengths. -/
structure ClientHello where
  version : UInt16
  random : List UInt8
  sessionId : List UInt8
  cipherSuites : List UInt16
  compressionMethods : List UInt8
  extensions : List HelloExtension
  random_length : random.length = 32
  session_fits : sessionId.length < 2 ^ 8
  compression_fits : compressionMethods.length < 2 ^ 8
  fits : ∀ e ∈ extensions, e.Fits
  once : ∀ t ∈ knownTypes, (extensions.map HelloExtension.type).count t ≤ 1

namespace ClientHello

variable (h : ClientHello)

/-- The extensions behind their length; a hello without any may leave out the length too. -/
def extensionBlock (omitted : Bool) : List UInt8 :=
  if omitted && h.extensions.isEmpty then [] else vec16 (h.extensions.flatMap HelloExtension.bytes)

def body (omitted : Bool) : List UInt8 :=
  toBe16 h.version ++ h.random ++ vec8 h.sessionId ++ vec16 (u16Bytes h.cipherSuites) ++
    vec8 h.compressionMethods ++ h.extensionBlock omitted

/-- The hello as one handshake message in one record. -/
def record (recordVersion : UInt16) (omitted : Bool) : List UInt8 :=
  0x16 :: toBe16 recordVersion ++
    vec16 (0x01 :: toBe24 (h.body omitted).length ++ h.body omitted)

/-- The value of an extension, if there is one. -/
def find {α : Type} (w : HelloExtension → Option α) : Option α := h.extensions.findSome? w

variable {h}

/-- Of several writes to a register, only one carries a value. -/
theorem getLast?_filterMap {α : Type} {w : HelloExtension → Option α} {t : UInt16}
    (ht : t ∈ knownTypes) (hw : ∀ e, (w e).isSome → e.type = t) :
    (h.extensions.filterMap w).getLast? = h.find w := by
  have hlen : (h.extensions.filterMap w).length ≤ 1 := by
    have honce := h.once t ht
    have hle : ∀ l : List HelloExtension,
        (l.filterMap w).length ≤ (l.map HelloExtension.type).count t := by
      intro l
      induction l with
      | nil => simp
      | cons e l ih =>
        rw [List.filterMap_cons, List.map_cons, List.count_cons]
        cases he : w e with
        | none => simp only; omega
        | some a =>
          have htype : e.type = t := hw e (by simp [he])
          simp only [htype, List.length_cons, beq_self_eq_true, if_true]
          omega
    exact (hle _).trans honce
  rw [find, ← List.head?_filterMap]
  cases hl : h.extensions.filterMap w with
  | nil => rfl
  | cons a l =>
    rw [hl] at hlen
    have hnil : l = [] := by
      rw [← List.length_eq_zero_iff]
      simpa using hlen
    rw [hnil]
    rfl

end ClientHello

end Library
