import Pktscope.Library.DomainNames
import Pktscope.Library.Utf8

/-! # DNS messages on the wire

A header with four counts, the questions, and three sections of records (RFC 1035).
The names of a message can be of any kind; its bytes are those of one whose names
are written.
-/

namespace Library

/-- A number in some bytes, the most significant first. -/
def toBe : ℕ → ℕ → List UInt8
  | 0, _ => []
  | k + 1, n => UInt8.ofNat (n / 256 ^ k) :: toBe k n

@[simp] theorem length_toBe (k n : ℕ) : (toBe k n).length = k := by
  induction k with
  | zero => rfl
  | succ k ih => rw [toBe, List.length_cons, ih]

theorem beNat_toBe {k n : ℕ} (h : n < 256 ^ k) : beNat (toBe k n) = n := by
  have hfold (acc : ℕ) : (toBe k n).foldl (fun n b => n * 256 + b.toNat) acc =
      acc * 256 ^ k + n % 256 ^ k := by
    clear h
    induction k generalizing acc with
    | zero => simp [toBe, Nat.mod_one]
    | succ k ih =>
      have hmod : n % (256 ^ k * 256) = n % 256 ^ k + 256 ^ k * (n / 256 ^ k % 256) := Nat.mod_mul
      have hbyte : (UInt8.ofNat (n / 256 ^ k)).toNat = n / 256 ^ k % 256 := UInt8.toNat_ofNat'
      rw [toBe, List.foldl_cons, ih, hbyte, Nat.pow_succ, hmod, Nat.add_mul, Nat.mul_assoc,
        Nat.mul_comm 256, Nat.mul_comm (n / 256 ^ k % 256), Nat.add_assoc, Nat.add_comm (n % 256 ^ k)]
  rw [beNat, hfold, Nat.zero_mul, Nat.zero_add, Nat.mod_eq_of_lt h]

/-- What a header says beside the counts. The bits between the response bit and the response code
are kept as one number. -/
structure WireHeader where
  id : UInt16
  response : Bool
  middle : Fin (2 ^ 11)
  rcode : Fin (2 ^ 4)

def WireHeader.flags (h : WireHeader) : UInt16 :=
  UInt16.ofNat (h.response.toNat * 2 ^ 15 + h.middle * 2 ^ 4 + h.rcode)

structure WireQuestion (N : Type) where
  qname : N
  qtype : UInt16
  qclass : UInt16

/-- The data of a record. -/
inductive WireData (N : Type) where
  | a (ip : UInt32)
  | aaaa (ip : BitVec 128)
  | cname (name : N)
  | ns (name : N)
  | ptr (name : N)
  | mx (preference : UInt16) (exchange : N)
  | txt (strings : List String)
  | srv (priority weight port : UInt16) (target : N)
  | soa (mname rname : N) (serial refresh retry expire minimum : UInt32)
  | other (rtype : UInt16) (data : List UInt8)

structure WireRecord (N : Type) where
  name : N
  rclass : UInt16
  ttl : UInt32
  data : WireData N

structure WireMessage (N : Type) where
  header : WireHeader
  questions : List (WireQuestion N)
  answers : List (WireRecord N)
  authorities : List (WireRecord N)
  additionals : List (WireRecord N)

section Map

variable {N M : Type} (f : N → M)

def WireQuestion.map (q : WireQuestion N) : WireQuestion M := ⟨f q.qname, q.qtype, q.qclass⟩

def WireData.map : WireData N → WireData M
  | a ip => a ip
  | aaaa ip => aaaa ip
  | cname name => cname (f name)
  | ns name => ns (f name)
  | ptr name => ptr (f name)
  | mx preference exchange => mx preference (f exchange)
  | txt strings => txt strings
  | srv priority weight port target => srv priority weight port (f target)
  | soa mname rname serial refresh retry expire minimum =>
    soa (f mname) (f rname) serial refresh retry expire minimum
  | other rtype data => other rtype data

def WireRecord.map (r : WireRecord N) : WireRecord M := ⟨f r.name, r.rclass, r.ttl, r.data.map f⟩

/-- The message with its names replaced. -/
def WireMessage.map (m : WireMessage N) : WireMessage M :=
  ⟨m.header, m.questions.map (.map f), m.answers.map (.map f), m.authorities.map (.map f),
    m.additionals.map (.map f)⟩

end Map

section Names

variable {N : Type}

/-- The names of the data, in their order. -/
def WireData.names : WireData N → List N
  | cname name | ns name | ptr name => [name]
  | mx _ exchange => [exchange]
  | srv _ _ _ target => [target]
  | soa mname rname .. => [mname, rname]
  | _ => []

def WireRecord.names (r : WireRecord N) : List N := r.name :: r.data.names

/-- The records of all three sections. -/
def WireMessage.records (m : WireMessage N) : List (WireRecord N) :=
  m.answers ++ (m.authorities ++ m.additionals)

def WireMessage.names (m : WireMessage N) : List N :=
  m.questions.map WireQuestion.qname ++ m.records.flatMap WireRecord.names

theorem WireMessage.forall_names {m : WireMessage N} {P : N → Prop} : (∀ w ∈ m.names, P w) ↔
    (∀ q ∈ m.questions, P q.qname) ∧ ∀ r ∈ m.records, ∀ w ∈ r.names, P w := by
  rw [WireMessage.names, List.forall_mem_append, List.forall_mem_map, List.forall_mem_flatMap]

variable {M L : Type} (f : N → M) (g : M → L)

theorem WireData.map_map (d : WireData N) : (d.map f).map g = d.map (g ∘ f) := by
  cases d <;> rfl

theorem WireRecord.map_map (r : WireRecord N) : (r.map f).map g = r.map (g ∘ f) := by
  rw [WireRecord.map, WireRecord.map, WireData.map_map]
  rfl

theorem WireMessage.map_map (m : WireMessage N) : (m.map f).map g = m.map (g ∘ f) := by
  have hrecords (l : List (WireRecord N)) :
      (l.map (WireRecord.map f)).map (WireRecord.map g) = l.map (WireRecord.map (g ∘ f)) := by
    rw [List.map_map]
    exact List.map_congr_left fun r _ => r.map_map f g
  simp only [WireMessage.map, hrecords, List.map_map]
  rfl

theorem WireMessage.records_map (m : WireMessage N) : (m.map f).records = m.records.map (WireRecord.map f) := by
  simp only [WireMessage.records, WireMessage.map, List.map_append]

theorem WireData.names_map (d : WireData N) : (d.map f).names = d.names.map f := by
  cases d <;> rfl

theorem WireMessage.names_map (m : WireMessage N) : (m.map f).names = m.names.map f := by
  have hrecord (r : WireRecord N) : (r.map f).names = r.names.map f := by
    rw [WireRecord.names, WireRecord.names, List.map_cons, ← WireData.names_map]
    rfl
  rw [WireMessage.names, WireMessage.names, WireMessage.records_map, List.map_append,
    List.flatMap_map, List.map_flatMap]
  simp only [hrecord, WireMessage.map, List.map_map]
  rfl

theorem WireData.map_congr {d : WireData N} {f g : N → M} (h : ∀ n ∈ d.names, f n = g n) :
    d.map f = d.map g := by
  cases d with
  | a | aaaa | txt | other => rfl
  | cname name | ns name | ptr name => exact congrArg _ (h name List.mem_cons_self)
  | mx preference exchange => exact congrArg _ (h exchange List.mem_cons_self)
  | srv priority weight port target => exact congrArg _ (h target List.mem_cons_self)
  | soa mname rname serial refresh retry expire minimum =>
    rw [WireData.map, WireData.map, h mname List.mem_cons_self,
      h rname (List.mem_cons_of_mem _ List.mem_cons_self)]

theorem WireMessage.map_congr {m : WireMessage N} {f g : N → M} (h : ∀ n ∈ m.names, f n = g n) :
    m.map f = m.map g := by
  obtain ⟨hquestions, hrecords⟩ := WireMessage.forall_names.mp h
  have hquestion : ∀ q ∈ m.questions, WireQuestion.map f q = WireQuestion.map g q := by
    intro q hq
    rw [WireQuestion.map, WireQuestion.map, hquestions q hq]
  have hrecord : ∀ r ∈ m.records, WireRecord.map f r = WireRecord.map g r := by
    intro r hr
    rw [WireRecord.map, WireRecord.map, hrecords r hr r.name List.mem_cons_self,
      WireData.map_congr fun n hn => hrecords r hr n (List.mem_cons_of_mem _ hn)]
  have hsections : ∀ l : List (WireRecord N), (∀ r ∈ l, r ∈ m.records) →
      l.map (WireRecord.map f) = l.map (WireRecord.map g) :=
    fun l hl => List.map_congr_left fun r hr => hrecord r (hl r hr)
  rw [WireMessage.map, WireMessage.map, List.map_congr_left hquestion,
    hsections m.answers fun r hr => List.mem_append_left _ hr,
    hsections m.authorities fun r hr => List.mem_append_right _ (List.mem_append_left _ hr),
    hsections m.additionals fun r hr => List.mem_append_right _ (List.mem_append_right _ hr)]

end Names

/-- The types of the records whose data has a form of its own. -/
def formedTypes : List UInt16 := [1, 28, 5, 2, 12, 15, 16, 33, 6]

namespace WireData

def rtype {N : Type} : WireData N → UInt16
  | a _ => 1
  | aaaa _ => 28
  | cname _ => 5
  | ns _ => 2
  | ptr _ => 12
  | mx _ _ => 15
  | txt _ => 16
  | srv _ _ _ _ => 33
  | soa .. => 6
  | other rtype _ => rtype

def bytes : WireData NameForm → List UInt8
  | a ip => toBe32 ip
  | aaaa ip => toBe 16 ip.toNat
  | cname name | ns name | ptr name => name.bytes
  | mx preference exchange => toBe16 preference ++ exchange.bytes
  | txt strings => strings.flatMap fun s => vec8 (utf8Bytes s)
  | srv priority weight port target =>
    toBe16 priority ++ (toBe16 weight ++ (toBe16 port ++ target.bytes))
  | soa mname rname serial refresh retry expire minimum =>
    mname.bytes ++ (rname.bytes ++ (toBe32 serial ++ (toBe32 refresh ++ (toBe32 retry ++
      (toBe32 expire ++ toBe32 minimum)))))
  | other _ data => data

/-- The names of the data with their places, when it begins at a place. -/
def places (pos : ℕ) : WireData NameForm → List (ℕ × NameForm)
  | cname name | ns name | ptr name => [(pos, name)]
  | mx _ exchange => [(pos + 2, exchange)]
  | srv _ _ _ target => [(pos + 6, target)]
  | soa mname rname .. => [(pos, mname), (pos + mname.bytes.length, rname)]
  | _ => []

/-- The data fits into a record, its strings fit into theirs, and other data has a type of its own. -/
structure Fits (d : WireData NameForm) : Prop where
  length : d.bytes.length < 2 ^ 16
  strings : ∀ l, d = txt l → ∀ s ∈ l, (utf8Bytes s).length < 2 ^ 8
  type : ∀ t l, d = other t l → t ∉ formedTypes

end WireData

def WireQuestion.bytes (q : WireQuestion NameForm) : List UInt8 :=
  q.qname.bytes ++ (toBe16 q.qtype ++ toBe16 q.qclass)

def WireRecord.bytes (r : WireRecord NameForm) : List UInt8 :=
  r.name.bytes ++ (toBe16 r.data.rtype ++ (toBe16 r.rclass ++ (toBe32 r.ttl ++ vec16 r.data.bytes)))

def WireQuestion.places (pos : ℕ) (q : WireQuestion NameForm) : List (ℕ × NameForm) :=
  [(pos, q.qname)]

def WireRecord.places (pos : ℕ) (r : WireRecord NameForm) : List (ℕ × NameForm) :=
  (pos, r.name) :: r.data.places (pos + r.name.bytes.length + 10)

/-- The names of parts that stand one behind the other. -/
def placesFrom {α : Type} (bytes : α → List UInt8) (places : ℕ → α → List (ℕ × NameForm)) :
    ℕ → List α → List (ℕ × NameForm)
  | _, [] => []
  | pos, x :: rest => places pos x ++ placesFrom bytes places (pos + (bytes x).length) rest

section Places

variable {l : List UInt8} {pos base : ℕ} {α : Type} {bytes : α → List UInt8}
  {places : ℕ → α → List (ℕ × NameForm)}

theorem WireData.standsAt_places (d : WireData NameForm) (h : StandsAt l pos d.bytes) :
    ∀ x ∈ d.places pos, StandsAt l x.1 x.2.bytes := by
  cases d with
  | a | aaaa | txt | other => intro x hx; cases hx
  | cname name | ns name | ptr name =>
    intro x hx
    rw [List.mem_singleton.mp hx]
    exact h
  | mx preference exchange =>
    intro x hx
    rw [List.mem_singleton.mp hx]
    exact h.right
  | srv priority weight port target =>
    intro x hx
    rw [List.mem_singleton.mp hx]
    exact h.right.right.right
  | soa mname rname serial refresh retry expire minimum =>
    intro x hx
    rcases List.mem_cons.mp hx with rfl | hx
    · exact h.left
    · rw [List.mem_singleton.mp hx]
      exact h.right.left

theorem WireQuestion.standsAt_places (q : WireQuestion NameForm) (h : StandsAt l pos q.bytes) :
    ∀ x ∈ q.places pos, StandsAt l x.1 x.2.bytes := by
  intro x hx
  rw [List.mem_singleton.mp hx]
  exact h.left

theorem WireRecord.standsAt_places (r : WireRecord NameForm) (h : StandsAt l pos r.bytes) :
    ∀ x ∈ r.places pos, StandsAt l x.1 x.2.bytes := by
  intro x hx
  rcases List.mem_cons.mp hx with rfl | hx
  · exact h.left
  · exact r.data.standsAt_places h.right.right.right.right.right x hx

theorem standsAt_placesFrom (hplaces : ∀ y p, StandsAt l p (bytes y) →
      ∀ x ∈ places p y, StandsAt l x.1 x.2.bytes) {parts : List α}
    (h : StandsAt l pos (parts.flatMap bytes)) :
    ∀ x ∈ placesFrom bytes places pos parts, StandsAt l x.1 x.2.bytes := by
  induction parts generalizing pos with
  | nil => intro x hx; cases hx
  | cons y parts ih =>
    rw [List.flatMap_cons] at h
    intro x hx
    rcases List.mem_append.mp hx with hx | hx
    · exact hplaces y pos h.left x hx
    · exact ih h.right x hx

theorem WireData.map_places (d : WireData NameForm) (pos : ℕ) :
    (d.places pos).map Prod.snd = d.names := by
  cases d <;> rfl

theorem map_placesFrom {names : α → List NameForm}
    (hplaces : ∀ y p, (places p y).map Prod.snd = names y) (parts : List α) (pos : ℕ) :
    (placesFrom bytes places pos parts).map Prod.snd = parts.flatMap names := by
  induction parts generalizing pos with
  | nil => rfl
  | cons y parts ih => rw [placesFrom, List.map_append, hplaces, ih, List.flatMap_cons]

end Places

namespace WireMessage

def headBytes {N : Type} (m : WireMessage N) : List UInt8 :=
  toBe16 m.header.id ++ (toBe16 m.header.flags ++ (toBe16 (UInt16.ofNat m.questions.length) ++
    (toBe16 (UInt16.ofNat m.answers.length) ++ (toBe16 (UInt16.ofNat m.authorities.length) ++
      toBe16 (UInt16.ofNat m.additionals.length)))))

variable (m : WireMessage NameForm)

def bytes : List UInt8 :=
  m.headBytes ++ (m.questions.flatMap WireQuestion.bytes ++ (m.answers.flatMap WireRecord.bytes ++
    (m.authorities.flatMap WireRecord.bytes ++ m.additionals.flatMap WireRecord.bytes)))

/-- The names of the message with their offsets. -/
def places : List (ℕ × NameForm) :=
  let answersAt := 12 + (m.questions.flatMap WireQuestion.bytes).length
  let authoritiesAt := answersAt + (m.answers.flatMap WireRecord.bytes).length
  let additionalsAt := authoritiesAt + (m.authorities.flatMap WireRecord.bytes).length
  placesFrom WireQuestion.bytes WireQuestion.places 12 m.questions ++
    (placesFrom WireRecord.bytes WireRecord.places answersAt m.answers ++
      (placesFrom WireRecord.bytes WireRecord.places authoritiesAt m.authorities ++
        placesFrom WireRecord.bytes WireRecord.places additionalsAt m.additionals))

theorem standsAt_places (m : WireMessage NameForm) :
    ∀ x ∈ m.places, StandsAt m.bytes x.1 x.2.bytes := by
  have hat := standsAt_whole m.bytes
  have hq := hat.right.left
  have ha := hat.right.right.left
  have hu := hat.right.right.right.left
  have hd := hat.right.right.right.right
  simp only [Nat.zero_add] at hq ha hu hd
  intro x hx
  rcases List.mem_append.mp hx with hx | hx
  · exact standsAt_placesFrom (fun q _ => WireQuestion.standsAt_places q) hq x hx
  rcases List.mem_append.mp hx with hx | hx
  · exact standsAt_placesFrom (fun r _ => WireRecord.standsAt_places r) ha x hx
  rcases List.mem_append.mp hx with hx | hx
  · exact standsAt_placesFrom (fun r _ => WireRecord.standsAt_places r) hu x hx
  · exact standsAt_placesFrom (fun r _ => WireRecord.standsAt_places r) hd x hx

/-- The names of a message are those at its places. -/
theorem map_places (m : WireMessage NameForm) : m.places.map Prod.snd = m.names := by
  have hquestion (q : WireQuestion NameForm) (p : ℕ) :
      (q.places p).map Prod.snd = [q.qname] := rfl
  have hrecord (r : WireRecord NameForm) (p : ℕ) : (r.places p).map Prod.snd = r.names := by
    rw [WireRecord.places, List.map_cons, WireData.map_places]
    rfl
  simp only [places, List.map_append, map_placesFrom hquestion, map_placesFrom hrecord, names,
    records, List.flatMap_append]
  rw [List.map_eq_flatMap (l := m.questions)]

/-- The sections have the sizes that readers accept, and the data of every record fits. -/
structure Fits : Prop where
  asks : m.questions ≠ []
  questions : m.questions.length ≤ 100
  answers : m.answers.length ≤ 4096
  authorities : m.authorities.length ≤ 4096
  additionals : m.additionals.length ≤ 4096
  data : ∀ r ∈ m.records, r.data.Fits

end WireMessage

end Library
