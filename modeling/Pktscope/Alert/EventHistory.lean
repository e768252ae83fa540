import Pktscope.Alert.Pairs
import Pktscope.Alert.Storage
import Pktscope.Library.Feed
import Pktscope.Monitor.Integrity
import Pktscope.Store.Reads

/-! # What the read queries tell of the events

The process list and the destinations of a process, as functions of the events
that were evaluated: who was seen first and last and when, which addresses a
process has contacted, and what is known of each of them.
-/

namespace Pktscope.AlertEngine

open Library Library.Prog Library.Sql Store

variable {F : Type}

/-- The events of the evaluations, in order. -/
def eventsOf (ops : List (StoreOp F)) : List FlowEvent :=
  ops.filterMap fun op => op.event?.map Prod.snd

/-- The sightings of processes: who an event is attributed to, and when. -/
def sightings (evs : List FlowEvent) : List (SocketProc × ℤ) :=
  evs.filterMap fun ev => ev.proc.map (·, ev.ts)

def addressOf (ev : FlowEvent) : String := ev.destIp.display

/-- What is shown of a process. -/
structure ProcessSeen where
  name : String
  firstMs : ℤ
  lastMs : ℤ
  deriving DecidableEq

/-- The name at the last sighting, and the times of the first and the last one. -/
def processSeen (log : List (SocketProc × ℤ)) : Option ProcessSeen :=
  match log.head?, log.getLast? with
  | some first, some last => some ⟨last.1.name, first.2, last.2⟩
  | _, _ => none

def listingSeen (r : ProcessListing) : ProcessSeen := ⟨r.name, r.firstSeenMs, r.lastSeenMs⟩

/-- What is shown of a destination. -/
structure DestSeen where
  name : Option String
  asn : Option ℕ
  asOrg : Option String
  country : Option String
  firstMs : ℤ
  lastMs : ℤ
  deriving DecidableEq

/-- Of each attribute the last value that was known, and the times of the first and last event. -/
def destSeen (evs : List FlowEvent) : Option DestSeen :=
  match evs.head?, evs.getLast? with
  | some first, some last => some {
      name := lastKnown FlowEvent.name evs
      asn := lastKnown (fun ev => ev.geo.asn) evs
      asOrg := lastKnown (fun ev => ev.geo.asOrg) evs
      country := lastKnown (fun ev => ev.geo.country) evs
      firstMs := first.ts
      lastMs := last.ts }
  | _, _ => none

def rowSeen (r : DestRow) : DestSeen :=
  ⟨r.bestName, r.asn, r.asOrg, r.country, r.firstSeenMs, r.lastSeenMs⟩

/-- Whether an event of an executable went to an address. -/
def contacted (evs : List FlowEvent) (exe address : String) : Bool :=
  evs.any fun ev => decide (ev.proc.map SocketProc.exe = some exe) && decide (addressOf ev = address)

section Feeds

/-- How attributed events are entered into the process list. -/
def processFeed : Feed (SocketProc × ℤ) ProcessListing String where
  id := ProcessListing.id
  key := ProcessListing.exePath
  label a := a.1.exe
  new i a := ⟨i, a.1.exe, a.1.name, a.2, a.2⟩
  change a r := { r with lastSeenMs := a.2, name := a.1.name }
  id_new _ _ := rfl
  key_new _ _ := rfl
  id_change _ _ := rfl
  key_change _ _ := rfl

/-- How events are entered into the destinations. -/
def destFeed : Feed FlowEvent DestRow String where
  id := DestRow.id
  key := DestRow.ip
  label := addressOf
  new i ev := {
    id := i
    ip := addressOf ev
    bestName := ev.name
    asn := ev.geo.asn
    asOrg := ev.geo.asOrg
    country := ev.geo.country
    firstSeenMs := ev.ts
    lastSeenMs := ev.ts }
  change ev r := { r with
    lastSeenMs := ev.ts
    bestName := ev.name.or r.bestName
    asn := ev.geo.asn.or r.asn
    asOrg := ev.geo.asOrg.or r.asOrg
    country := ev.geo.country.or r.country }
  id_new _ _ := rfl
  key_new _ _ := rfl
  id_change _ _ := rfl
  key_change _ _ := rfl

theorem shows_process : processFeed.Shows listingSeen processSeen where
  nil := rfl
  new _ _ := rfl
  change log a r h := by
    unfold processSeen at h
    split at h
    · rename_i first last hf hl
      obtain ⟨hf', hl'⟩ := ends_concat hf a
      rw [processSeen, hf', hl']
      simp only [listingSeen, Option.some.injEq, ProcessSeen.mk.injEq] at h
      simp [listingSeen, processFeed, h.2.1]
    · cases h
  none log h := by
    unfold processSeen at h
    cases log with
    | nil => rfl
    | cons a log =>
      rw [List.head?_cons, List.getLast?_cons] at h
      cases h

theorem shows_dest : destFeed.Shows rowSeen destSeen where
  nil := rfl
  new i ev := by
    have hone (f : FlowEvent → Option ℕ) : lastKnown f [ev] = f ev := by
      simpa using lastKnown_concat f [] ev
    have hone' (f : FlowEvent → Option String) : lastKnown f [ev] = f ev := by
      simpa using lastKnown_concat f [] ev
    simp [destSeen, rowSeen, destFeed, hone, hone']
  change log ev r h := by
    unfold destSeen at h
    split at h
    · rename_i first last hf hl
      obtain ⟨hf', hl'⟩ := ends_concat hf ev
      rw [destSeen, hf', hl']
      simp only [rowSeen, Option.some.injEq, DestSeen.mk.injEq] at h
      obtain ⟨hname, hasn, horg, hcountry, hfirst, -⟩ := h
      simp [rowSeen, destFeed, hname, hasn, horg, hcountry, hfirst]
    · cases h
  none log h := by
    unfold destSeen at h
    cases log with
    | nil => rfl
    | cons a log =>
      rw [List.head?_cons, List.getLast?_cons] at h
      cases h

end Feeds

section Steps

variable {s : Store F} {cfg : AlertConfig F} {ev : FlowEvent}

/-- The process list, before it is sorted. -/
def listings (s : Store F) : List ProcessListing := s.processes.map ProcessRow.listing

theorem listings_upsertProcess (p : SocketProc) (ts : ℤ) (s : Store F) :
    listings ((upsertProcess p.exe p.name ts).run s).2 = processFeed.enter (p, ts) (listings s) := by
  have hsel : select processFeed.key p.exe (listings s) =
      (select ProcessRow.exePath p.exe s.processes).map ProcessRow.listing := select_map _ _ _
  unfold upsertProcess
  simp only [run_bind, run_query]
  cases h : select ProcessRow.exePath p.exe s.processes with
  | some r =>
    rw [h] at hsel
    simp only [Option.map_some, run_bind, run_write, run_pure]
    have hrow (r : ProcessRow) : ProcessRow.listing { r with lastSeenMs := ts, name := p.name } =
        processFeed.change (p, ts) r.listing := rfl
    rw [Feed.enter_of_some hsel]
    exact (update_map ProcessListing.id hrow r.id s.processes).symm
  | none =>
    rw [h] at hsel
    simp only [Option.map_none, run_bind, run_exec, run_pure]
    rw [Feed.enter_of_none hsel, listings, listings, nextRowid_map, List.map_append]
    rfl

theorem destinations_upsertDestination (ev : FlowEvent) (s : Store F) :
    ((upsertDestination ev.destIp ev.name ev.geo ev.ts).run s).2.destinations =
      destFeed.enter ev s.destinations := by
  unfold upsertDestination
  simp only [run_bind, run_query]
  cases h : select DestRow.ip ev.destIp.display s.destinations with
  | some r => exact (Feed.enter_of_some (f := destFeed) h).symm
  | none => exact (Feed.enter_of_none (f := destFeed) h).symm

theorem destinations_prepare (cfg : AlertConfig F) (ev : FlowEvent) (s : Store F) :
    ((prepare cfg ev).run s).2.destinations = destFeed.enter ev s.destinations := by
  have hstart : Keeps Store.destinations (Baseline.ensureStarted cfg ev.ts : StoreM F _) :=
    Baseline.ensureStarted_keeps cfg ev.ts fun _ _ => rfl
  have hobs : Keeps Store.destinations (recordObserved ev : StoreM F Unit) :=
    recordObserved_keeps fun _ _ => rfl
  simp only [prepare, run_bind, run_pure]
  rw [hobs.run, destinations_upsertDestination, hstart.run]

variable [F64 F]

theorem destinations_evaluate (cfg : AlertConfig F) (ev : FlowEvent) (s : Store F) :
    ((evaluateFull cfg ev).run s).2.destinations = destFeed.enter ev s.destinations := by
  cases hp : ev.proc with
  | none =>
    rw [evaluateFull_of_none cfg ev hp]
    simp only [run_bind, run_pure, destinations_prepare]
  | some p =>
    have hup : Keeps Store.destinations (upsertProcess p.exe p.name ev.ts : StoreM F _) :=
      upsertProcess_keeps (fun _ _ => rfl) _ _ _
    have hsig (sub : Subject) (wasNew : Bool) : Keeps Store.destinations
        (signals cfg ev sub wasNew) :=
      signals_keeps (fun k => by cases k <;> simp [Blind]) fun _ _ => rfl
    rw [evaluateFull_of_proc cfg ev hp, setup]
    simp only [run_bind, run_pure]
    rw [(hsig _ _).run, hup.run, destinations_prepare]

theorem listings_evaluate (cfg : AlertConfig F) (ev : FlowEvent) (s : Store F) :
    listings ((evaluateFull cfg ev).run s).2 =
      match ev.proc with
      | some p => processFeed.enter (p, ev.ts) (listings s)
      | none => listings s := by
  have hprep : Keeps listings (prepare cfg ev : StoreM F _) :=
    prepare_keeps cfg ev (fun _ _ => rfl) (fun _ _ => rfl) fun _ _ => rfl
  cases hp : ev.proc with
  | none =>
    rw [evaluateFull_of_none cfg ev hp]
    simp only [run_bind, run_pure, hprep.run]
  | some p =>
    have hsig (sub : Subject) (wasNew : Bool) : Keeps (listings (F := F))
        (signals cfg ev sub wasNew) := by
      refine signals_keeps (fun k => ?_) fun _ _ => rfl
      cases k with
      | identity =>
        have hcur (i : Option ℕ) (r : ProcessRow) :
            ProcessRow.listing { r with curIdentityId := i } = r.listing := rfl
        exact ⟨fun s i => map_update (hcur i) s.processes _, fun _ _ => rfl⟩
      | _ => simp [Blind, listings]
    rw [evaluateFull_of_proc cfg ev hp, setup]
    simp only [run_bind, run_pure]
    rw [(hsig _ _).run, listings_upsertProcess, hprep.run]

omit [F64 F] in
theorem paired_touchPair (s : Store F) (pid destId : ℕ) (ts : ℤ) (pair : ℕ × ℕ) :
    (select PairRow.key pair ((touchPair pid destId ts).run s).2.pairs).isSome =
      ((select PairRow.key pair s.pairs).isSome || decide ((pid, destId) = pair)) := by
  cases hsel : select PairRow.key (pid, destId) s.pairs with
  | some r =>
    have hkeep (r : PairRow) : PairRow.key (PairRow.countUp ts r) = PairRow.key r := rfl
    rw [touchPair_of_some hsel, select_update hkeep, Option.isSome_map]
    by_cases hp : (pid, destId) = pair
    · simp [← hp, hsel]
    · simp [hp]
  | none =>
    rw [touchPair_of_none hsel, select_append, Option.isSome_or]
    by_cases hp : (pid, destId) = pair
    · simp [hp, PairRow.key]
    · have hkey : PairRow.key ⟨nextRowid PairRow.id s.pairs, pid, destId, ts, ts, 1⟩ ≠ pair := hp
      simp [hp, hkey]

theorem paired_evaluate (cfg : AlertConfig F) (ev : FlowEvent) (s : Store F) (i j : ℕ) :
    ((evaluateFull cfg ev).run s).2.paired i j = (s.paired i j ||
      decide (ev.proc.map (fun p => (pidRowOf s p.exe, destIdOf ev s)) = some (i, j))) := by
  cases hp : ev.proc with
  | none =>
    have hk : Keeps Store.pairs (evaluateFull cfg ev) := by
      rw [evaluateFull_of_none cfg ev hp]
      exact keeps_bind (prepare_keeps cfg ev (fun _ _ => rfl) (fun _ _ => rfl) fun _ _ => rfl)
        fun _ => trivial
    simp [paired, hk.run]
  | some p =>
    obtain ⟨-, t, ht, hrun⟩ := run_touchPart cfg ev p s
    have hpairs : ((evaluateFull cfg ev).run s).2.pairs =
        ((touchPair (pidRowOf s p.exe) (destIdOf ev s) ev.ts).run t).2.pairs := by
      rw [evaluateFull_eq_touchPart hp, run_bind, (afterTouch_keeps _).run, hrun]
      rfl
    simp only [paired, hpairs, ← ht, Option.map_some, Option.some.injEq]
    exact paired_touchPair t _ _ _ (i, j)

end Steps

section Run

variable {s t : Store F} {evs : List FlowEvent}

/-- Whether the store has a pair for an executable and an address. -/
def met (s : Store F) (exe address : String) : Bool :=
  match processFeed.idOf (listings s) exe, destFeed.idOf s.destinations address with
  | some i, some j => s.paired i j
  | _, _ => false

/-- A store that tells the history of some events. -/
structure Tells (evs : List FlowEvent) (s : Store F) : Prop where
  intact : Intact s
  processes : Feed.Fed processFeed listingSeen processSeen (sightings evs) (listings s)
  dests : Feed.Fed destFeed rowSeen destSeen evs s.destinations
  contacts : ∀ exe address, met s exe address = contacted evs exe address

theorem tells_openNew : Tells [] (openNew : Store F) where
  intact := intact_openNew
  processes := shows_process.fed_nil
  dests := shows_dest.fed_nil
  contacts _ _ := rfl

theorem Tells.distinct_listings (h : Tells evs s) : Distinct processFeed.key (listings s) := by
  have he := h.intact.keyed.exePaths
  rwa [Distinct, listings, List.map_map]

theorem map_id_listings (s : Store F) : (listings s).map processFeed.id = s.processIds := by
  rw [listings, List.map_map]
  rfl

theorem idOf_listings (s : Store F) (exe : String) : processFeed.idOf (listings s) exe = idOf s exe := by
  rw [Feed.idOf, listings, select_map, Option.map_map]
  rfl

theorem Tells.met_of_paired (h : Tells evs s) {exe address : String} {i j : ℕ}
    (hi : ∀ exe', processFeed.idOf (listings s) exe' = some i → exe' = exe)
    (hj : ∀ address', destFeed.idOf s.destinations address' = some j → address' = address)
    (hp : s.paired i j = true) : met s exe address = true := by
  obtain ⟨r, hr, hkey⟩ := select_isSome.mp hp
  obtain ⟨rfl, rfl⟩ := Prod.mk.inj hkey
  have hri := h.intact.referring.pairProcesses r hr r.processId rfl
  have hrj := h.intact.referring.pairDests r hr r.destId rfl
  rw [← map_id_listings] at hri
  obtain ⟨exe', he⟩ := Feed.exists_idOf (f := processFeed) h.distinct_listings hri
  obtain ⟨address', ha⟩ := Feed.exists_idOf (f := destFeed) h.intact.keyed.ips hrj
  rw [met, ← hi exe' he, ← hj address' ha, he, ha]
  exact hp

theorem met_eq_true {exe address : String} :
    met s exe address = true ↔ ∃ i j, processFeed.idOf (listings s) exe = some i ∧
      destFeed.idOf s.destinations address = some j ∧ s.paired i j = true := by
  unfold met
  constructor
  · intro h
    split at h
    · rename_i i j hi hj
      exact ⟨i, j, hi, hj, h⟩
    · cases h
  · rintro ⟨i, j, hi, hj, hp⟩
    rw [hi, hj]
    exact hp

/-- What an evaluation does to the row ids of a table: it keeps them, and has one for its event. -/
structure Assigns {κ : Type} (before after : κ → Option ℕ) (label : Option κ) (i : ℕ) : Prop where
  kept : ∀ k j, before k = some j → after k = some j
  own : ∀ k, label = some k → after k = some i
  inj : ∀ k k' j, after k = some j → after k' = some j → k = k'

theorem assigns_listings [F64 F] (h : Tells evs s) (cfg : AlertConfig F) {ev : FlowEvent} {p : SocketProc}
    (hp : ev.proc = some p) :
    Assigns (processFeed.idOf (listings s))
      (processFeed.idOf (listings ((evaluateFull cfg ev).run s).2)) (some p.exe) (pidRowOf s p.exe) := by
  have hn := h.processes.numbered
  rw [listings_evaluate, hp]
  refine ⟨fun k j => Feed.idOf_enter hn, ?_, fun k k' j => Feed.idOf_inj (Feed.numbered_enter hn)⟩
  rintro k hk
  obtain rfl := Option.some.inj hk
  have hself := Feed.idOf_enter_self (f := processFeed) (a := (p, ev.ts)) hn
  have hnext : nextRowid processFeed.id (listings s) = nextRowid ProcessRow.id s.processes :=
    nextRowid_map _ _
  rw [hnext, idOf_listings] at hself
  exact hself

theorem assigns_destinations [F64 F] (h : Tells evs s) (cfg : AlertConfig F) (ev : FlowEvent) :
    Assigns (destFeed.idOf s.destinations)
      (destFeed.idOf ((evaluateFull cfg ev).run s).2.destinations) (some (addressOf ev))
      (destIdOf ev s) := by
  have hn := h.dests.numbered
  rw [destinations_evaluate]
  refine ⟨fun k j => Feed.idOf_enter hn, ?_, fun k k' j => Feed.idOf_inj (Feed.numbered_enter hn)⟩
  rintro k hk
  obtain rfl := Option.some.inj hk
  exact Feed.idOf_enter_self (f := destFeed) (a := ev) hn

theorem contacted_concat (evs : List FlowEvent) (ev : FlowEvent) (exe address : String) :
    contacted (evs ++ [ev]) exe address = (contacted evs exe address ||
      (decide (ev.proc.map SocketProc.exe = some exe) && decide (addressOf ev = address))) := by
  simp [contacted]

theorem Tells.met_evaluate [F64 F] (h : Tells evs s) (cfg : AlertConfig F) {ev : FlowEvent}
    {p : SocketProc} (hp : ev.proc = some p) (exe address : String) :
    met ((evaluateFull cfg ev).run s).2 exe address =
      (met s exe address || (decide (p.exe = exe) && decide (addressOf ev = address))) := by
  have hP := assigns_listings h cfg hp
  have hD := assigns_destinations h cfg ev
  have hpair := paired_evaluate cfg ev s
  rw [hp] at hpair
  generalize ((evaluateFull cfg ev).run s).2 = t at *
  rw [Bool.eq_iff_iff, Bool.or_eq_true, Bool.and_eq_true, decide_eq_true_eq, decide_eq_true_eq]
  constructor
  · intro ht
    obtain ⟨i, j, hi, hj, hij⟩ := met_eq_true.mp ht
    rw [hpair, Bool.or_eq_true] at hij
    rcases hij with hij | hij
    · exact Or.inl (h.met_of_paired (fun exe' he => hP.inj _ _ i (hP.kept _ _ he) hi)
        (fun address' ha => hD.inj _ _ j (hD.kept _ _ ha) hj) hij)
    · simp only [Option.map_some, Option.some.injEq, Prod.mk.injEq, decide_eq_true_eq] at hij
      obtain ⟨rfl, rfl⟩ := hij
      exact Or.inr ⟨hP.inj _ _ _ (hP.own _ rfl) hi, hD.inj _ _ _ (hD.own _ rfl) hj⟩
  · rintro (hs | ⟨rfl, rfl⟩)
    · obtain ⟨i, j, hi, hj, hij⟩ := met_eq_true.mp hs
      refine met_eq_true.mpr ⟨i, j, hP.kept _ _ hi, hD.kept _ _ hj, ?_⟩
      rw [hpair, hij, Bool.true_or]
    · refine met_eq_true.mpr ⟨_, _, hP.own _ rfl, hD.own _ rfl, ?_⟩
      rw [hpair]
      simp

theorem Tells.met_evaluate_none [F64 F] (h : Tells evs s) (cfg : AlertConfig F) {ev : FlowEvent}
    (hp : ev.proc = none) (exe address : String) :
    met ((evaluateFull cfg ev).run s).2 exe address = met s exe address := by
  have hD := assigns_destinations h cfg ev
  have hpair := paired_evaluate cfg ev s
  have hlist := listings_evaluate cfg ev s
  rw [hp] at hpair hlist
  generalize ((evaluateFull cfg ev).run s).2 = t at *
  rw [Bool.eq_iff_iff]
  constructor
  · intro ht
    obtain ⟨i, j, hi, hj, hij⟩ := met_eq_true.mp ht
    rw [hlist] at hi
    refine h.met_of_paired (fun exe' he => Feed.idOf_inj h.processes.numbered he hi)
      (fun address' ha => hD.inj _ _ j (hD.kept _ _ ha) hj) ?_
    simpa [hpair] using hij
  · intro hs
    obtain ⟨i, j, hi, hj, hij⟩ := met_eq_true.mp hs
    exact met_eq_true.mpr ⟨i, j, hlist ▸ hi, hD.kept _ _ hj, by simp [hpair, hij]⟩

/-- An evaluation adds its event to the history that the store tells. -/
theorem Tells.evaluate [F64 F] (h : Tells evs s) (cfg : AlertConfig F) (ev : FlowEvent) :
    Tells (evs ++ [ev]) ((evaluateFull cfg ev).run s).2 where
  intact := (evaluateFull_intact cfg ev h.intact).run.1
  processes := by
    rw [listings_evaluate, sightings, List.filterMap_append]
    cases hp : ev.proc with
    | none =>
      have hnone : [ev].filterMap (fun ev => ev.proc.map (·, ev.ts)) = [] := by simp [hp]
      rw [hnone, List.append_nil]
      exact h.processes
    | some p =>
      have hone : [ev].filterMap (fun ev => ev.proc.map (·, ev.ts)) = [(p, ev.ts)] := by simp [hp]
      rw [hone]
      exact shows_process.fed_enter h.processes (p, ev.ts)
  dests := by
    rw [destinations_evaluate]
    exact shows_dest.fed_enter h.dests ev
  contacts exe address := by
    rw [contacted_concat, ← h.contacts]
    cases hp : ev.proc with
    | none => simp [h.met_evaluate_none cfg hp]
    | some p => simp [h.met_evaluate cfg hp]

/-- A sweep takes nothing of it. -/
theorem Tells.sweep (h : Tells evs s) (beforeMs : ℤ) :
    Tells evs ((deleteOlderThan beforeMs).run s).2 :=
  ⟨(deleteOlderThan_intact h.intact beforeMs).run.1, h.processes, h.dests, h.contacts⟩

theorem eventsOf_concat (ops : List (StoreOp F)) (op : StoreOp F) :
    eventsOf (ops ++ [op]) = eventsOf ops ++ (op.event?.map Prod.snd).toList := by
  cases op <;> simp [eventsOf, StoreOp.event?]

theorem tells_storeAfter [F64 F] (ops : List (StoreOp F)) : Tells (eventsOf ops) (storeAfter ops) := by
  induction ops using List.reverseRecOn with
  | nil => exact tells_openNew
  | append_singleton ops op ih =>
    rw [storeAfter_concat, eventsOf_concat]
    cases op with
    | evaluate cfg ev => exact ih.evaluate cfg ev
    | sweep beforeMs => exact (List.append_nil _).symm ▸ ih.sweep beforeMs

theorem Tells.filter_listProcesses (h : Tells evs s) (o : OrderBy) (exe : String) :
    ((((listProcesses o).run s).1.filter fun p => decide (p.exePath = exe)).map listingSeen) =
      (processSeen (labelled (fun a => a.1.exe) (sightings evs) exe)).toList := by
  have hshown := h.processes.shown exe
  have hfilter := @OrderBy.filter_sortDesc _ _ o ProcessListing.lastSeenMs _ _ _ h.distinct_listings exe
  rw [listProcesses, run_query]
  refine (congrArg (List.map listingSeen) hfilter).trans ?_
  rw [← Option.toList_map]
  exact congrArg Option.toList hshown

/-- The listed destination of an address. -/
theorem Tells.filter_listDestinations (h : Tells evs s) (o : OrderBy) {p : ProcessListing}
    (hp : p ∈ listings s) (address : String) :
    ((((listDestinationsForProcess o p.id).run s).1.filter fun d => decide (d.ip = address)).map
        rowSeen) =
      if contacted evs p.exePath address then (destSeen (labelled addressOf evs address)).toList
      else [] := by
  have hsel : processFeed.idOf (listings s) p.exePath = some p.id := by
    obtain ⟨q, hq⟩ := Option.isSome_iff_exists.mp
      (select_isSome.mpr (⟨p, hp, rfl⟩ : ∃ q ∈ listings s, processFeed.key q = p.exePath))
    obtain rfl : q = p := h.distinct_listings.eq (mem_of_select hq) hp (key_of_select hq)
    rw [Feed.idOf, hq]
    rfl
  have hips := h.intact.keyed.ips
  have hdistinct : Distinct DestRow.ip (s.destinationsOf p.id) := by
    rw [h.intact.keyed.destinationsOf_eq]
    exact hips.sublist (List.filter_sublist.map _)
  have hshown := h.dests.shown address
  rw [listDestinationsForProcess, run_query, o.filter_sortDesc hdistinct, ← hdistinct.filter_eq,
    h.intact.keyed.destinationsOf_eq, List.filter_comm, hips.filter_eq, ← h.contacts]
  cases hd : select DestRow.ip address s.destinations with
  | none =>
    have hnone : destSeen (labelled addressOf evs address) = none := by
      refine Eq.trans hshown.symm ?_
      exact congrArg (Option.map rowSeen) hd
    simp [hnone]
  | some d =>
    have hseen : destSeen (labelled addressOf evs address) = some (rowSeen d) := by
      refine Eq.trans hshown.symm ?_
      exact congrArg (Option.map rowSeen) hd
    have hdid : destFeed.idOf s.destinations address = some d.id := congrArg (Option.map DestRow.id) hd
    rw [met, hsel, hdid, hseen]
    by_cases hpair : s.paired p.id d.id = true <;> simp [hpair]

end Run

end Pktscope.AlertEngine
