import Mathlib.Algebra.GroupWithZero.Nat
import Pktscope.Library.Bytes

/-! # Capture files

Readers of the two published capture formats. A pcap file is a header and the packets
behind it; a pcapng file is a row of blocks, each between two copies of its length.
The reader refuses what it does not understand.
-/

namespace Library.CaptureFile

/-- The order of the bytes of a number. -/
inductive Order where
  | little
  | big
  deriving DecidableEq

def Order.num : Order → List UInt8 → ℕ
  | .little, bytes => beNat bytes.reverse
  | .big, bytes => beNat bytes

/-- Some bytes in front, and the rest. -/
def cut (n : ℕ) (bytes : List UInt8) : Option (List UInt8 × List UInt8) :=
  if n ≤ bytes.length then some (bytes.splitAt n) else none

def readNum (order : Order) (n : ℕ) (bytes : List UInt8) : Option (ℕ × List UInt8) :=
  (cut n bytes).map fun r => (order.num r.1, r.2)

/-- A packet of a file, its time in microseconds since the epoch. -/
structure Packet where
  micros : ℕ
  data : List UInt8
  origLen : ℕ
  deriving DecidableEq

structure Interface where
  linkType : ℕ
  snapLen : ℕ
  deriving DecidableEq

section Pcap

/-- The byte order that a magic number shows. -/
def orderOf (magic : ℕ) (bytes : List UInt8) : Option Order :=
  if Order.little.num bytes = magic then some .little
  else if Order.big.num bytes = magic then some .big
  else none

/-- The header of a pcap file: magic number, version 2, two fields that are not used, the snap length
and the link type. -/
def readPcapHeader (bytes : List UInt8) : Option (Order × Interface × List UInt8) := do
  let (magic, rest) ← cut 4 bytes
  let order ← orderOf 0xa1b2c3d4 magic
  let (major, rest) ← readNum order 2 rest
  let (_, rest) ← readNum order 2 rest
  let (_, rest) ← readNum order 4 rest
  let (_, rest) ← readNum order 4 rest
  let (snapLen, rest) ← readNum order 4 rest
  let (linkType, rest) ← readNum order 4 rest
  if major = 2 then some (order, ⟨linkType % 2 ^ 16, snapLen⟩, rest) else none

def readPcapPacket (order : Order) (bytes : List UInt8) : Option (Packet × List UInt8) := do
  let (seconds, rest) ← readNum order 4 bytes
  let (micros, rest) ← readNum order 4 rest
  let (capLen, rest) ← readNum order 4 rest
  let (origLen, rest) ← readNum order 4 rest
  let (data, rest) ← cut capLen rest
  if micros < 1000000 then some (⟨seconds * 1000000 + micros, data, origLen⟩, rest) else none

def readPcapPackets (order : Order) : ℕ → List UInt8 → Option (List Packet)
  | _, [] => some []
  | 0, _ :: _ => none
  | rounds + 1, b :: bytes => do
    let (packet, rest) ← readPcapPacket order (b :: bytes)
    let packets ← readPcapPackets order rounds rest
    return packet :: packets

def readPcap (bytes : List UInt8) : Option (Interface × List Packet) := do
  let (order, interface, rest) ← readPcapHeader bytes
  let packets ← readPcapPackets order rest.length rest
  return (interface, packets)

end Pcap

section Pcapng

structure Block where
  order : Order
  kind : ℕ
  body : List UInt8

def sectionKind : ℕ := 0x0a0d0d0a

/-- The order of a block: a section header shows it behind its kind and length. -/
def blockOrder (order : Option Order) (bytes : List UInt8) : Option Order :=
  if Order.little.num (bytes.take 4) = sectionKind then orderOf 0x1a2b3c4d ((bytes.drop 8).take 4)
  else order

/-- A block between two copies of its length, which is a multiple of four. -/
def readBlock (before : Option Order) (bytes : List UInt8) : Option (Block × List UInt8) := do
  let order ← blockOrder before bytes
  let (kind, rest) ← readNum order 4 bytes
  let (total, rest) ← readNum order 4 rest
  let (body, rest) ← cut (total - 12) rest
  let (again, rest) ← readNum order 4 rest
  if 12 ≤ total ∧ total % 4 = 0 ∧ again = total then some (⟨order, kind, body⟩, rest) else none

/-- The blocks of a file, up to its end. -/
def readBlocks : ℕ → Option Order → List UInt8 → Option (List Block)
  | _, _, [] => some []
  | 0, _, _ :: _ => none
  | rounds + 1, before, b :: bytes => do
    let (block, rest) ← readBlock before (b :: bytes)
    let blocks ← readBlocks rounds (some block.order) rest
    return block :: blocks

/-- A section header: magic number, version 1.0 and a length; no options. -/
def readSection (b : Block) : Option Unit := do
  let (_, rest) ← readNum b.order 4 b.body
  let (major, rest) ← readNum b.order 2 rest
  let (minor, rest) ← readNum b.order 2 rest
  let (_, rest) ← readNum b.order 8 rest
  if major = 1 ∧ minor = 0 ∧ rest = [] then some () else none

/-- An interface without options: its packets have times in microseconds. -/
def readInterface (b : Block) : Option Interface := do
  let (linkType, rest) ← readNum b.order 2 b.body
  let (_, rest) ← readNum b.order 2 rest
  let (snapLen, rest) ← readNum b.order 4 rest
  if rest = [] then some ⟨linkType, snapLen⟩ else none

/-- A packet with its interface, padded to a multiple of four; no options. -/
def readEnhanced (interfaces : List Interface) (b : Block) : Option (Interface × Packet) := do
  let (id, rest) ← readNum b.order 4 b.body
  let (high, rest) ← readNum b.order 4 rest
  let (low, rest) ← readNum b.order 4 rest
  let (capLen, rest) ← readNum b.order 4 rest
  let (origLen, rest) ← readNum b.order 4 rest
  let (data, rest) ← cut capLen rest
  let interface ← interfaces[id]?
  if rest.length < 4 then some (interface, ⟨high * 2 ^ 32 + low, data, origLen⟩) else none

/-- What the blocks say: the interfaces of the last section, and the packets of all. -/
def readContents : List Interface → List Block → Option (List Interface × List (Interface × Packet))
  | interfaces, [] => some (interfaces, [])
  | interfaces, b :: blocks =>
    if b.kind = sectionKind then do
      readSection b
      readContents [] blocks
    else if b.kind = 1 then do
      let interface ← readInterface b
      readContents (interfaces ++ [interface]) blocks
    else if b.kind = 6 then do
      let packet ← readEnhanced interfaces b
      let (interfaces, packets) ← readContents interfaces blocks
      return (interfaces, packet :: packets)
    else none

def readPcapng (bytes : List UInt8) : Option (List Interface × List (Interface × Packet)) := do
  let blocks ← readBlocks bytes.length none bytes
  readContents [] blocks

end Pcapng

section Numbers

variable {a rest : List UInt8} {n : ℕ}

/-- A number in some bytes, the low one first. -/
def toLe : ℕ → ℕ → List UInt8
  | 0, _ => []
  | k + 1, n => UInt8.ofNat n :: toLe k (n / 256)

@[simp] theorem length_toLe (k n : ℕ) : (toLe k n).length = k := by
  induction k generalizing n with
  | zero => rfl
  | succ k ih => rw [toLe, List.length_cons, ih]

theorem beNat_concat (l : List UInt8) (b : UInt8) : beNat (l ++ [b]) = beNat l * 256 + b.toNat := by
  rw [beNat, List.foldl_append]
  rfl

theorem num_toLe {k n : ℕ} (h : n < 256 ^ k) : Order.little.num (toLe k n) = n := by
  induction k generalizing n with
  | zero =>
    have hzero : n = 0 := by simpa using h
    rw [hzero]
    rfl
  | succ k ih =>
    have hdiv : n / 256 < 256 ^ k := by
      rw [Nat.pow_succ] at h
      exact Nat.div_lt_of_lt_mul (by rwa [Nat.mul_comm])
    have hrest : beNat (toLe k (n / 256)).reverse = n / 256 := ih hdiv
    change beNat (UInt8.ofNat n :: toLe k (n / 256)).reverse = n
    rw [List.reverse_cons, beNat_concat, hrest, UInt8.toNat_ofNat']
    omega

theorem cut_append (h : a.length = n) : cut n (a ++ rest) = some (a, rest) := by
  have hle : n ≤ (a ++ rest).length := by
    rw [List.length_append]
    omega
  subst h
  rw [cut, if_pos hle, List.splitAt_eq, List.take_left, List.drop_left]

theorem readNum_toLe {k : ℕ} (h : n < 256 ^ k) :
    readNum .little k (toLe k n ++ rest) = some (n, rest) := by
  rw [readNum, cut_append (length_toLe k n), Option.map_some, num_toLe h]

end Numbers

section Blocks

/-- A block between two copies of its length, in the low order. -/
def blockBytes (b : Block) : List UInt8 :=
  toLe 4 b.kind ++ (toLe 4 (12 + b.body.length) ++ (b.body ++ toLe 4 (12 + b.body.length)))

/-- A block whose fields fit and whose length is a multiple of four. -/
structure Block.Fits (b : Block) : Prop where
  order : b.order = .little
  kind : b.kind < 256 ^ 4
  total : 12 + b.body.length < 256 ^ 4
  aligned : b.body.length % 4 = 0

theorem readBlock_blockBytes {b : Block} (hb : b.Fits) {before : Option Order} (rest : List UInt8)
    (horder : blockOrder before (blockBytes b ++ rest) = some .little) :
    readBlock before (blockBytes b ++ rest) = some (b, rest) := by
  have hcut : cut (12 + b.body.length - 12) (b.body ++ (toLe 4 (12 + b.body.length) ++ rest)) =
      some (b.body, toLe 4 (12 + b.body.length) ++ rest) := cut_append (by omega)
  have haligned := hb.aligned
  unfold readBlock
  rw [horder]
  unfold blockBytes
  simp only [List.append_assoc, Option.bind_eq_bind, Option.bind_some, readNum_toLe hb.kind,
    readNum_toLe hb.total, hcut]
  rw [if_pos ⟨by omega, by omega, trivial⟩, ← hb.order]

theorem blockOrder_blockBytes {b : Block} (hkind : b.kind < 256 ^ 4) (hb : b.kind ≠ sectionKind)
    (before : Option Order) (rest : List UInt8) :
    blockOrder before (blockBytes b ++ rest) = before := by
  have htake : (blockBytes b ++ rest).take 4 = toLe 4 b.kind := by
    rw [blockBytes, List.append_assoc]
    exact List.take_left' (length_toLe 4 b.kind)
  rw [blockOrder, htake, num_toLe hkind, if_neg hb]

theorem orderOf_toLe {magic : ℕ} (h : magic < 256 ^ 4) : orderOf magic (toLe 4 magic) = some .little :=
  if_pos (num_toLe h)

/-- A section header shows its order. -/
theorem blockOrder_section {b : Block} {more : List UInt8} (hb : b.kind = sectionKind)
    (hmagic : b.body = toLe 4 0x1a2b3c4d ++ more) (before : Option Order) (rest : List UInt8) :
    blockOrder before (blockBytes b ++ rest) = some .little := by
  have htake : (blockBytes b ++ rest).take 4 = toLe 4 sectionKind := by
    rw [blockBytes, hb, List.append_assoc]
    exact List.take_left' (length_toLe 4 _)
  have hdrop : ((blockBytes b ++ rest).drop 8).take 4 = toLe 4 0x1a2b3c4d := by
    rw [blockBytes, hmagic]
    simp only [List.append_assoc]
    rw [← List.append_assoc, List.drop_left' (by simp), List.take_left' (length_toLe 4 _)]
  have hnum : Order.little.num (toLe 4 sectionKind) = sectionKind := num_toLe (by decide)
  rw [blockOrder, htake, if_pos hnum, hdrop, orderOf_toLe (by decide)]

theorem blockBytes_ne_nil (b : Block) (rest : List UInt8) : blockBytes b ++ rest ≠ [] := by
  simp [blockBytes, toLe]

theorem readBlocks_cons {b : Block} (hb : b.Fits) {before : Option Order} {rest : List UInt8}
    (horder : blockOrder before (blockBytes b ++ rest) = some .little) (rounds : ℕ) :
    readBlocks (rounds + 1) before (blockBytes b ++ rest) =
      (readBlocks rounds (some .little) rest).map (b :: ·) := by
  have hread := readBlock_blockBytes hb rest horder
  cases hbytes : blockBytes b ++ rest with
  | nil => exact absurd hbytes (blockBytes_ne_nil b rest)
  | cons c bytes =>
    rw [readBlocks, ← hbytes, hread]
    simp only [Option.bind_eq_bind, Option.bind_some, hb.order]
    cases readBlocks rounds (some .little) rest with
    | none => rfl
    | some blocks => rfl

/-- A row of blocks, none of them a section header, is read back. -/
theorem readBlocks_blockBytes {blocks : List Block} (hfits : ∀ b ∈ blocks, b.Fits)
    (hkinds : ∀ b ∈ blocks, b.kind ≠ sectionKind) {rounds : ℕ} (hr : blocks.length ≤ rounds) :
    readBlocks rounds (some .little) (blocks.flatMap blockBytes) = some blocks := by
  induction blocks generalizing rounds with
  | nil =>
    cases rounds with
    | zero => rfl
    | succ rounds => rfl
  | cons b blocks ih =>
    obtain ⟨rounds, rfl⟩ := Nat.exists_eq_succ_of_ne_zero (Nat.ne_of_gt (Nat.zero_lt_of_lt hr))
    have hb := hfits b List.mem_cons_self
    have horder := blockOrder_blockBytes hb.kind (hkinds b List.mem_cons_self) (some .little)
      (blocks.flatMap blockBytes)
    rw [List.flatMap_cons, readBlocks_cons hb horder,
      ih (fun c hc => hfits c (List.mem_cons_of_mem b hc))
        (fun c hc => hkinds c (List.mem_cons_of_mem b hc)) (Nat.le_of_succ_le_succ hr)]
    rfl

end Blocks

end Library.CaptureFile
