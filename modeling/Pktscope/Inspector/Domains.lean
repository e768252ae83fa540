import Mathlib.Data.String.Basic
import Pktscope.Enrich.Spelling
import Pktscope.Inspector.State
import Pktscope.Library.Grouping
import Pktscope.Monitor.Lifetime
import Pktscope.Net.Display

/-! # Connections by domain

The inspector counts live connections by organisation, or by the registrable
domain of the name shown, which for a connection without a name is the text of
its address. The detectors label such a connection with the whole text.
-/

namespace Pktscope

open Library

/-- The sums over the live connections of one domain. -/
structure DomainAgg where
  domain : String
  conns : ℕ
  bytesUp : ℕ
  bytesDown : ℕ
  deriving DecidableEq

/-- The domain that a connection counts for. -/
def ConnectionDto.domain (c : ConnectionDto) : String :=
  c.asOrg.getD (registrableDomainOf c.destName)

namespace DomainAgg

def new (domain : String) : DomainAgg := ⟨domain, 0, 0, 0⟩

def add (e : DomainAgg) (c : ConnectionDto) : DomainAgg :=
  { e with
    conns := e.conns + 1
    bytesUp := e.bytesUp + c.bytesUp
    bytesDown := e.bytesDown + c.bytesDown }

/-- Count a connection in the row of its domain. -/
def count (map : OrderedMap String DomainAgg) (c : ConnectionDto) : OrderedMap String DomainAgg :=
  map.insert c.domain (((map.get? c.domain).getD (new c.domain)).add c)

/-- The row of a domain over some connections, if one of them counts for it. -/
def rowOf (conns : List ConnectionDto) (domain : String) : Option DomainAgg :=
  sessionFold (fun e c => (e.getD (new domain)).add c) (conns.filter fun c => c.domain = domain)

/-- The rollup by domain. -/
def rollup : Rollup ConnectionDto String DomainAgg := ⟨ConnectionDto.domain, fun d _ => new d, add⟩

theorem label_new (d : String) (c : ConnectionDto) : (rollup.new d c).domain = d := rfl

theorem label_add (e : DomainAgg) (c : ConnectionDto) : (rollup.add e c).domain = e.domain := rfl

end DomainAgg

/-- The live connections by domain, the busiest first. -/
def InspectorApp.domainAggs {F : Type} (app : InspectorApp F) : List DomainAgg :=
  let map := (app.conns.entries.map Prod.snd).foldl DomainAgg.count .empty
  (map.entries.map Prod.snd).insertionSort fun a b =>
    b.bytesUp + b.bytesDown ≤ a.bytesUp + a.bytesDown

section Texts

theorem registrableDomainOf_display (ip : IpAddr) :
    registrableDomainOf ip.display = ip.display ↔ ip.dotted = false := by
  constructor
  · intro h
    by_contra hdots
    have hmany := IpAddr.four_le_splitOn_display (Bool.eq_true_of_not_eq_false hdots)
    have hkept : (keptLabels ip.display).length ≤ 3 :=
      (List.length_take_le _ _).trans (depthOf_le_three _)
    rw [← h, splitOn_registrableDomainOf, List.length_map, List.length_reverse] at hmany
    omega
  · intro h
    cases ip with
    | v4 a => cases h
    | v6 a =>
      have hdot : '.' ∉ (IpAddr.v6 a).display.toList := IpAddr.not_mem_v6Text h
      have htext : (IpAddr.v6 a).display.toList.rdropWhile (· = '.') =
          (IpAddr.v6 a).display.toList := by
        rw [List.rdropWhile_eq_self_iff]
        intro hne hlast
        exact hdot (of_decide_eq_true hlast ▸ List.getLast_mem hne)
      rw [registrableDomainOf, dnsLabels, htext, List.splitOn_eq_singleton hdot]
      exact String.ofList_toList

theorem IpAddr.display_inj {ip ip' : IpAddr} (h : ip.dotted = false) (h' : ip'.dotted = false)
    (htext : ip.display = ip'.display) : ip = ip' := by
  cases ip with
  | v4 a => cases h
  | v6 a =>
    cases ip' with
    | v4 b => cases h'
    | v6 b => exact congrArg IpAddr.v6 (IpAddr.v6Text_inj h h' htext)

end Texts

namespace Worker

variable {F : Type} [F64 F]

section Facts

/-- The name that the packets of a flow have given it last. -/
def nameIn (turns : List (Turn F)) : Option String :=
  turns.foldl (fun name t => t.visit.name.or name) none

/-- The remote address of a flow, that of its first packet. -/
def remoteIn (turns : List (Turn F)) : Option IpAddr :=
  turns.head?.map fun t => t.visit.sides.remoteAddr

omit [F64 F] in
theorem nameIn_concat (turns : List (Turn F)) (t : Turn F) :
    nameIn (turns ++ [t]) = t.visit.name.or (nameIn turns) := by
  rw [nameIn, List.foldl_append]
  rfl

omit [F64 F] in
theorem remoteIn_concat (turns : List (Turn F)) (t : Turn F) :
    remoteIn (turns ++ [t]) = (remoteIn turns).or (some t.visit.sides.remoteAddr) := by
  cases turns <;> rfl

omit [F64 F] in
theorem destName_entryOf (turns : List (Turn F)) :
    (entryOf turns).map (fun e => e.2.destName) =
      (remoteIn turns).map fun ip => (nameIn turns).getD ip.display := by
  induction turns using List.reverseRecOn with
  | nil => rfl
  | append_singleton turns t ih =>
    rw [entryOf, sessionFold_concat, ← entryOf, remoteIn_concat, nameIn_concat]
    cases hentry : entryOf turns with
    | none =>
      rw [hentry, Option.map_none] at ih
      have hremote : remoteIn turns = none := by
        cases hr : remoteIn turns with
        | none => rfl
        | some ip =>
          rw [hr] at ih
          cases ih
      have hname : nameIn turns = none := by
        cases turns with
        | nil => rfl
        | cons t' turns => cases hremote
      rw [hremote, hname]
      cases hvisit : t.visit.name <;>
        simp [Turn.note, Visit.updateDto, Visit.openDto, hvisit]
    | some e =>
      rw [hentry, Option.map_some] at ih
      obtain ⟨ip, hremote, hshown⟩ := Option.map_eq_some_iff.mp ih.symm
      rw [hremote]
      cases hvisit : t.visit.name <;>
        simp [Turn.note, Visit.updateDto, Visit.openDto, hvisit, hshown]

end Facts

variable (ctx : WorkerCtx F) (store : Store F) (inputs : List Recv)

/-- A live connection of a run, with the name and the address that its packets gave. -/
def LiveAs (dto : ConnectionDto) (name : Option String) (ip : IpAddr) : Prop :=
  ∃ k, (steps ctx (start ctx store) inputs).live.lookup k = some dto ∧
    nameIn (lifetime k (history ctx (start ctx store) inputs)) = name ∧
    remoteIn (lifetime k (history ctx (start ctx store) inputs)) = some ip

variable {ctx store inputs} {dto dto' : ConnectionDto} {name : Option String} {ip ip' : IpAddr}

theorem LiveAs.destName (h : LiveAs ctx store inputs dto name ip) :
    dto.destName = name.getD ip.display := by
  obtain ⟨k, hlive, rfl, hremote⟩ := h
  have htidy := tidy_steps (tidy_start ctx store) inputs
  have hentry := htidy.entry_snd k
  rw [hlive, entry_steps] at hentry
  obtain ⟨e, he, rfl⟩ := Option.map_eq_some_iff.mp hentry
  have hshown := destName_entryOf (lifetime k (history ctx (start ctx store) inputs))
  rw [he, hremote] at hshown
  exact Option.some.inj hshown

theorem LiveAs.domain (h : LiveAs ctx store inputs dto name ip) :
    dto.domain = dto.asOrg.getD (registrableDomainOf (name.getD ip.display)) := by
  rw [ConnectionDto.domain, h.destName]

theorem LiveAs.domain_unnamed (h : LiveAs ctx store inputs dto none ip) (horg : dto.asOrg = none)
    (hdots : ip.dotted = false) : dto.domain = ip.display := by
  rw [h.domain, horg, Option.getD_none, Option.getD_none]
  exact (registrableDomainOf_display ip).mpr hdots

theorem stableLabel_eq (ev : FlowEvent) :
    ev.stableLabel = ev.geo.asOrg.getD ((ev.name.map registrableDomainOf).getD ev.destIp.display) := by
  rw [FlowEvent.stableLabel]
  cases ev.geo.asOrg <;> cases ev.name <;> simp

variable (ctx store inputs)

/-- The inspector groups the live connections by the labels of the detectors, and keeps unnamed
ones with different addresses apart, exactly when no connection without organisation and name has
an address with dots. -/
theorem domains_eq_labels_iff :
    ((∀ dto name ip, LiveAs ctx store inputs dto name ip → ∀ ev : FlowEvent,
        ev.geo.asOrg = dto.asOrg → ev.name = name → ev.destIp = ip → dto.domain = ev.stableLabel) ∧
      ∀ dto dto' ip ip', LiveAs ctx store inputs dto none ip → LiveAs ctx store inputs dto' none ip' →
        dto.asOrg = none → dto'.asOrg = none → ip ≠ ip' → dto.domain ≠ dto'.domain) ↔
      ∀ dto ip, LiveAs ctx store inputs dto none ip → dto.asOrg = none → ip.dotted = false := by
  constructor
  · rintro ⟨hlabels, -⟩ dto ip hlive horg
    obtain ⟨k, -, -, hremote⟩ := id hlive
    obtain ⟨t, -, -⟩ := Option.map_eq_some_iff.mp hremote
    have hlabel := hlabels dto none ip hlive
      { t.visit.event true with geo := .default, name := none, destIp := ip } horg.symm rfl rfl
    rw [hlive.domain, horg, Option.getD_none, Option.getD_none] at hlabel
    exact (registrableDomainOf_display ip).mp hlabel
  · intro h
    constructor
    · rintro dto name ip hlive ev horg rfl rfl
      rw [hlive.domain, stableLabel_eq, horg]
      cases hasOrg : dto.asOrg with
      | some org => rfl
      | none =>
        cases hname : ev.name with
        | some name => rfl
        | none =>
          rw [hname] at hlive
          simp only [Option.getD_none, Option.map_none]
          exact (registrableDomainOf_display ev.destIp).mpr (h dto _ hlive hasOrg)
    · intro dto dto' ip ip' hlive hlive' horg horg' hne hsame
      have hdots := h dto ip hlive horg
      have hdots' := h dto' ip' hlive' horg'
      rw [hlive.domain_unnamed horg hdots, hlive'.domain_unnamed horg' hdots'] at hsame
      exact hne (IpAddr.display_inj hdots hdots' hsame)

section Samples

/-- An app connects to two servers whose names nobody has seen. -/
def unnamedInputs : List Recv :=
  [.packet (tcpPacket 1000000 60 0x0a000002 40000 0x01020304 443 { sampleFlags with syn := true })
      (sampleEnv (some ⟨7, "app", some "/usr/bin/app"⟩)),
    .packet (tcpPacket 2000000 60 0x0a000002 40001 0x05060304 443 { sampleFlags with syn := true })
      (sampleEnv (some ⟨7, "app", some "/usr/bin/app"⟩))]

def unnamedDone : Worker ℚ := steps (sampleCtx ∅) (start (sampleCtx ∅) Store.openNew) unnamedInputs

/-- Two addresses that end alike are counted as one domain. -/
theorem addresses_merged :
    (unnamedDone.live.entries.map fun e =>
        let life := lifetime e.1 (history (sampleCtx ∅) (start (sampleCtx ∅) Store.openNew) unnamedInputs)
        (nameIn life, remoteIn life, e.2.asOrg, e.2.domain)) =
      [(none, some (.ofOctets 5 6 3 4), none, "3.4"),
        (none, some (.ofOctets 1 2 3 4), none, "3.4")] ∧
      ((InspectorApp.new : InspectorApp ℚ).setSnapshot (LiveState.snapshot unnamedDone.live)).domainAggs =
        [⟨"3.4", 2, 120, 0⟩] := by
  decide

end Samples

end Worker

end Pktscope
