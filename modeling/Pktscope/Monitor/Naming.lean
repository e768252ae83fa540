import Pktscope.Library.Feed
import Pktscope.Library.Ranked
import Pktscope.Monitor.Correlate

/-! # What the worker calls an address

The name of an address is the one that was observed last among the observations
of the best source so far: a name from a request header never replaces one from
an answer or a handshake, and any other name replaces what was there.
-/

namespace Pktscope

open Library

/-- A name that a packet gives to an address. -/
structure NameSighting where
  ip : IpAddr
  name : String
  source : NameSource
  ts : DateTime
  deriving DecidableEq

namespace NameSighting

def rank (o : NameSighting) : ℕ := o.source.priority

def entry (o : NameSighting) : NameEntry := { name := o.name, source := o.source, lastSeen := o.ts }

end NameSighting

namespace NameResolver

section Observations

/-- The addresses that a response answers, under the name it was asked for. -/
def answersOf (ts : DateTime) (dns : DnsInfo) : List NameSighting :=
  if dns.isResponse then
    match dns.questions.head? with
    | some q => dns.answers.filterMap fun ans =>
      (answerIp ans.rdata).map fun ip => ⟨ip, q.qname, .dns, ts⟩
    | none => []
  else []

/-- A name that a client sent towards an address. -/
def sentName (name : Option String) (dstIp : Option IpAddr) (source : NameSource) (ts : DateTime) :
    List NameSighting :=
  match name, dstIp with
  | some name, some ip => [⟨ip, name, source, ts⟩]
  | _, _ => []

/-- The names that the layers of a packet give, in order. -/
def sightingsFrom (ts : DateTime) (dstIp : Option IpAddr) : List Layer → List NameSighting
  | [] => []
  | .ipv4 ip :: rest => sightingsFrom ts (some (.v4 ip.dstIp)) rest
  | .ipv6 ip :: rest => sightingsFrom ts (some (.v6 ip.dstIp)) rest
  | .dns dns :: rest => answersOf ts dns ++ sightingsFrom ts dstIp rest
  | .tlsClientHello tls :: rest =>
    sentName tls.sni dstIp .tlsSni ts ++ sightingsFrom ts dstIp rest
  | .http h :: rest => sentName h.host dstIp .httpHost ts ++ sightingsFrom ts dstIp rest
  | _ :: rest => sightingsFrom ts dstIp rest

def sightingsOf (pkt : DecodedPacket) : List NameSighting :=
  sightingsFrom pkt.timestamp none pkt.layers

/-- Learn one name, and remember whether any name has changed. -/
def learn (acc : NameResolver × Bool) (o : NameSighting) : NameResolver × Bool :=
  ((acc.1.insert o.ip o.name o.source o.ts).1,
    acc.2 || (acc.1.insert o.ip o.name o.source o.ts).2)

theorem observeAnswers_foldl (qname : String) (ts : DateTime) (answers : List DnsRecord)
    (acc : NameResolver × Bool) :
    answers.foldl (observeAnswers qname ts) acc =
      (answers.filterMap fun ans =>
        (answerIp ans.rdata).map fun ip => (⟨ip, qname, .dns, ts⟩ : NameSighting)).foldl learn acc := by
  induction answers generalizing acc with
  | nil => rfl
  | cons ans answers ih =>
    rw [List.foldl_cons, ih, List.filterMap_cons]
    cases h : answerIp ans.rdata with
    | none => simp [observeAnswers, h]
    | some ip => simp [observeAnswers, h, learn]

theorem observeName_eq (name : Option String) (dstIp : Option IpAddr) (source : NameSource)
    (ts : DateTime) (acc : NameResolver × Bool) :
    observeName name dstIp source ts acc = (sentName name dstIp source ts).foldl learn acc := by
  cases name <;> cases dstIp <;> rfl

theorem observeFrom_eq (ts : DateTime) (dstIp : Option IpAddr) (layers : List Layer)
    (acc : NameResolver × Bool) :
    observeFrom ts dstIp acc layers = (sightingsFrom ts dstIp layers).foldl learn acc := by
  induction layers generalizing dstIp acc with
  | nil => rfl
  | cons layer rest ih =>
    cases layer with
    | ipv4 ip => exact ih _ _
    | ipv6 ip => exact ih _ _
    | dns dns =>
      rw [sightingsFrom, List.foldl_append, ← ih, observeFrom]
      congr 1
      unfold answersOf
      by_cases hr : dns.isResponse = true
      · rw [if_pos hr, if_pos hr]
        cases dns.questions.head? with
        | none => rfl
        | some q => exact observeAnswers_foldl _ _ _ _
      · rw [if_neg hr, if_neg hr]
        rfl
    | tlsClientHello tls =>
      rw [sightingsFrom, List.foldl_append, ← ih, observeFrom, observeName_eq]
    | http h =>
      rw [sightingsFrom, List.foldl_append, ← ih, observeFrom, observeName_eq]
    | _ => exact ih _ _

end Observations

section Register

variable {r : NameResolver} {log : List NameSighting}

/-- The observations of some packets, in order. -/
def sightingsOfAll (pkts : List DecodedPacket) : List NameSighting := pkts.flatMap sightingsOf

/-- A resolver that has learned a log. -/
def Learned (log : List NameSighting) (r : NameResolver) : Prop :=
  ∀ ip, r.byIp.lookup ip =
    (latestBest NameSighting.rank (labelled NameSighting.ip log ip)).map NameSighting.entry

theorem learned_new : Learned [] .new := fun _ => rfl

/-- An observation is offered to the register of its address. -/
theorem Learned.insert (h : Learned log r) (o : NameSighting) :
    Learned (log ++ [o]) (r.insert o.ip o.name o.source o.ts).1 := by
  intro ip
  rw [labelled_concat]
  by_cases hip : o.ip = ip
  · subst hip
    have ho := h o.ip
    rw [if_pos rfl, latestBest_concat]
    cases hb : latestBest NameSighting.rank (labelled NameSighting.ip log o.ip) with
    | none =>
      rw [hb] at ho
      simp [NameResolver.insert, ho, offer, NameSighting.entry]
    | some b =>
      rw [hb] at ho
      by_cases hlt : b.source.priority > o.source.priority
      · simp [NameResolver.insert, ho, offer, NameSighting.entry, NameSighting.rank, hlt]
      · simp [NameResolver.insert, ho, offer, NameSighting.entry, NameSighting.rank, hlt]
  · rw [if_neg hip, List.append_nil, ← h ip]
    have hne : ip ≠ o.ip := Ne.symm hip
    unfold NameResolver.insert
    dsimp only
    cases r.byIp.lookup o.ip with
    | none => exact AList.lookup_insert_ne hne
    | some e =>
      dsimp only
      split
      · rfl
      · exact AList.lookup_insert_ne hne

theorem Learned.foldl_learn (h : Learned log r) (os : List NameSighting) (changed : Bool) :
    Learned (log ++ os) (os.foldl learn (r, changed)).1 := by
  induction os generalizing log r changed with
  | nil => simpa using h
  | cons o os ih =>
    rw [List.foldl_cons, List.append_cons]
    exact ih (h.insert o) _

theorem Learned.observePacket (h : Learned log r) (pkt : DecodedPacket) :
    Learned (log ++ sightingsOf pkt) (r.observePacket pkt).1 := by
  rw [NameResolver.observePacket, observeFrom_eq]
  exact h.foldl_learn _ _

theorem nameFor_insert (r : NameResolver) (o : NameSighting)
    (h : (r.insert o.ip o.name o.source o.ts).2 = false) (ip : IpAddr) :
    (r.insert o.ip o.name o.source o.ts).1.nameFor ip = r.nameFor ip := by
  unfold NameResolver.insert at h ⊢
  dsimp only at h ⊢
  cases hl : r.byIp.lookup o.ip with
  | none =>
    rw [hl] at h
    cases h
  | some e =>
    rw [hl] at h
    dsimp only at h ⊢
    split
    · rfl
    · rename_i hle
      rw [if_neg hle, decide_eq_false_iff_not, not_not] at h
      unfold nameFor
      by_cases hip : ip = o.ip
      · subst hip
        simp [hl, h]
      · rw [AList.lookup_insert_ne hip]

theorem nameFor_foldl_learn (os : List NameSighting) (acc : NameResolver × Bool)
    (h : (os.foldl learn acc).2 = false) (ip : IpAddr) :
    acc.2 = false ∧ (os.foldl learn acc).1.nameFor ip = acc.1.nameFor ip := by
  induction os generalizing acc with
  | nil => exact ⟨h, rfl⟩
  | cons o os ih =>
    rw [List.foldl_cons] at h ⊢
    obtain ⟨hflag, hname⟩ := ih _ h
    obtain ⟨hacc, ho⟩ := Bool.or_eq_false_iff.mp hflag
    exact ⟨hacc, hname.trans (nameFor_insert acc.1 o ho ip)⟩

end Register

end NameResolver

namespace Worker

open NameResolver

variable {F : Type} [F64 F] (ctx : WorkerCtx F)

/-- The packets that a run has received. -/
def packetsOf (inputs : List Recv) : List DecodedPacket :=
  inputs.filterMap fun
    | .packet pkt _ => some pkt
    | .timeout _ => none

omit [F64 F] in
theorem resolver_drain (insertFails : Bool) (w : Worker F) :
    (drain insertFails w).resolver = w.resolver := by
  unfold drain
  split
  · rename_i snaps _
    exact List.foldlRecOn snaps _ (motive := fun v : Worker F => v.resolver = w.resolver) rfl
      fun _ hv _ _ => hv
  · rfl

theorem resolver_step (w : Worker F) (pkt : DecodedPacket) (env : Env) :
    (step ctx w (.packet pkt env)).resolver = (w.resolver.observePacket pkt).1 := by
  rw [step, resolver_drain, receive]
  dsimp only
  split <;> rfl

theorem learned_steps (store : Store F) (inputs : List Recv) :
    Learned (sightingsOfAll (packetsOf inputs)) (steps ctx (start ctx store) inputs).resolver := by
  induction inputs using List.reverseRecOn with
  | nil => exact learned_new
  | append_singleton inputs input ih =>
    rw [steps, List.foldl_append, packetsOf, List.filterMap_append, sightingsOfAll,
      List.flatMap_append]
    cases input with
    | timeout nowMs => exact (List.append_nil _).symm ▸ ih
    | packet pkt env =>
      change Learned (sightingsOfAll (packetsOf inputs) ++ (sightingsOf pkt ++ []))
        (step ctx (steps ctx (start ctx store) inputs) (.packet pkt env)).resolver
      rw [List.append_nil, resolver_step]
      exact ih.observePacket pkt

/-- At every turn the worker calls an address by the latest name of the best source so far, and a
packet that reports no change leaves the name of every address as it was. -/
theorem names_are_latest_best (store : Store F) (inputs : List Recv) (pkt : DecodedPacket) :
    let r := (steps ctx (start ctx store) inputs).resolver
    (∀ ip, r.nameFor ip =
      (latestBest NameSighting.rank
        (labelled NameSighting.ip (sightingsOfAll (packetsOf inputs)) ip)).map
          NameSighting.name) ∧
      ((r.observePacket pkt).2 = false → ∀ ip, (r.observePacket pkt).1.nameFor ip = r.nameFor ip) := by
  intro r
  constructor
  · intro ip
    rw [nameFor, learned_steps ctx store inputs ip, Option.map_map]
    rfl
  · intro h ip
    rw [observePacket, observeFrom_eq] at h ⊢
    exact (nameFor_foldl_learn _ _ h ip).2

end Worker

end Pktscope
