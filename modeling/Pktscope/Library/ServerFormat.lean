import Pktscope.Library.HelloFormat

/-! # The answer of a TLS server on the wire

The handshake messages that a server sends in the clear, one in a record: its
hello, its chain of certificates, and any other one.
-/

namespace Library

/-- A vector behind its length in three bytes. -/
def vec24 (l : List UInt8) : List UInt8 := toBe24 l.length ++ l

@[simp] theorem length_vec24 (l : List UInt8) : (vec24 l).length = l.length + 3 := by
  simp only [vec24, List.length_append, length_toBe24]
  omega

/-- A type and contents behind their length. -/
def typedBytes (e : UInt16 × List UInt8) : List UInt8 := toBe16 e.1 ++ vec16 e.2

theorem length_typedBytes (e : UInt16 × List UInt8) : (typedBytes e).length = e.2.length + 4 := by
  simp only [typedBytes, List.length_append, length_toBe16, length_vec16]
  omega

theorem length_le_typedBytes {es : List (UInt16 × List UInt8)} {e : UInt16 × List UInt8}
    (he : e ∈ es) : e.2.length ≤ (es.flatMap typedBytes).length := by
  induction es with
  | nil => cases he
  | cons e' es ih =>
    rw [List.flatMap_cons, List.length_append, length_typedBytes]
    rcases List.mem_cons.mp he with rfl | he
    · omega
    · have := ih he
      omega

theorem count_le_typedBytes (es : List (UInt16 × List UInt8)) :
    es.length ≤ (es.flatMap typedBytes).length := by
  induction es with
  | nil => simp
  | cons e es ih =>
    rw [List.flatMap_cons, List.length_append, length_typedBytes, List.length_cons]
    omega

/-- The protocol and the version that a server selects, and what else it says. -/
inductive ServerExtension where
  | alpn (protocol : String)
  | selectedVersion (version : UInt16)
  | other (type : UInt16) (data : List UInt8)

namespace ServerExtension

def type : ServerExtension → UInt16
  | alpn _ => 0x0010
  | selectedVersion _ => 0x002b
  | other type _ => type

/-- A client offers a list of versions; the version that the server selects stands alone. -/
def data : ServerExtension → List UInt8
  | alpn protocol => vec16 (vec8 (utf8Bytes protocol))
  | selectedVersion version => toBe16 version
  | other _ data => data

def Fits : ServerExtension → Prop
  | alpn protocol => (utf8Bytes protocol).length < 2 ^ 8
  | selectedVersion _ => True
  | other type _ => type ∉ [(0x0010 : UInt16), 0x002b]

def protocol? : ServerExtension → Option String
  | alpn protocol => some protocol
  | _ => none

def typed (e : ServerExtension) : UInt16 × List UInt8 := (e.type, e.data)

end ServerExtension

structure ServerHello where
  version : UInt16
  random : List UInt8
  sessionId : List UInt8
  cipherSuite : UInt16
  compressionMethod : UInt8
  extensions : List ServerExtension
  random_length : random.length = 32
  session_fits : sessionId.length < 2 ^ 8
  fits : ∀ e ∈ extensions, e.Fits

namespace ServerHello

variable (h : ServerHello)

/-- The extensions behind their length; a hello without any may leave out the length too. -/
def extensionBlock (omitted : Bool) : List UInt8 :=
  if omitted && h.extensions.isEmpty then []
  else vec16 ((h.extensions.map ServerExtension.typed).flatMap typedBytes)

def body (omitted : Bool) : List UInt8 :=
  toBe16 h.version ++ (h.random ++ (vec8 h.sessionId ++ (toBe16 h.cipherSuite ++
    (h.compressionMethod :: h.extensionBlock omitted))))

/-- The protocols that the server selects, one in a proper hello. -/
def protocols : List String := h.extensions.filterMap ServerExtension.protocol?

end ServerHello

/-- A message of a server with the bytes of its body. -/
inductive ServerMessage where
  | hello (h : ServerHello) (omitted : Bool)
  | certificates (chain : List (List UInt8))
  | other (type : UInt8) (body : List UInt8)

namespace ServerMessage

def type : ServerMessage → UInt8
  | hello _ _ => 0x02
  | certificates _ => 0x0b
  | other type _ => type

def body : ServerMessage → List UInt8
  | hello h omitted => h.body omitted
  | certificates chain => vec24 (chain.flatMap vec24)
  | other _ body => body

/-- The type of any other message is its own, and not that of a client. -/
def Fits : ServerMessage → Prop
  | other type _ => type ∉ [(0x01 : UInt8), 0x02, 0x0b]
  | _ => True

def record (recordVersion : UInt16) (m : ServerMessage) : List UInt8 :=
  handshakeRecord recordVersion m.type m.body

end ServerMessage

end Library
