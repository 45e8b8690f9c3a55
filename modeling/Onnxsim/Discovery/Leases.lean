import Onnxsim.Discovery.Announcements
import Onnxsim.Lib.Leases
import Onnxsim.Lib.Runs

namespace Onnxsim.Discovery.Bridge

open Lib.Bytes Lib.Searching Storage.Pool
open Text Announcements

/-- The parameters of the node; the port was validated and the timeout is an `int`. -/
structure Params where
  configured_host : ByteString
  configured_port : Int
  port_valid : 0 < configured_port ∧ configured_port ≤ 65535
  auto_discover : Bool
  verify_discovery : Bool
  require_graph_execution : Bool
  publish_discovery_status : Bool
  discovery_target : ByteString
  advertise_host : ByteString
  runner_id : ByteString
  discovery_timeout_ms : Int
  timeout_int : -2 ^ 31 ≤ discovery_timeout_ms ∧ discovery_timeout_ms < 2 ^ 31

abbrev Time := Int

structure State where
  host : ByteString
  port : Int
  discovered : Bool
  discovered_runner_id : ByteString
  last_discovery : Time
  discovered_timeout_ms : Int
  discovered_graph_execution : Option Bool
  announced_graph_execution : Option Bool

/-- How a capability query ends; a manifest that was received may be one that does not parse. -/
inductive Query
  | failed (error : ByteString)
  | answered (manifest : Except ByteString Bool)

def Query.graph_execution : Query → Option Bool
  | .answered (.ok b) => some b
  | _ => none

def Query.capability_error : Query → ByteString
  | .answered (.error e) => e
  | _ => []

/-- What a callback does besides changing the state: it publishes and it queries. -/
inductive Effect
  | published (text : ByteString)
  | status (text : ByteString)
  | queried (host : ByteString) (port : Int) (answer : Query)

def start (p : Params) (probe : Query) : State where
  host := p.configured_host
  port := p.configured_port
  discovered := false
  discovered_runner_id := []
  last_discovery := 0
  discovered_timeout_ms := 15000
  discovered_graph_execution := none
  announced_graph_execution := probe.graph_execution

def publish_discovery_status (p : Params) (state runner_id host : ByteString) (port : Int) (error : ByteString)
    (graph_execution : Option Bool) : List Effect :=
  if p.publish_discovery_status = false then []
  else
    [.status (ascii "\x7b\"schema_version\":1,\"state\":\"" ++ json_escape state ++ ascii "\",\"runner_id\":\"" ++
      json_escape runner_id ++ ascii "\",\"host\":\"" ++ json_escape host ++ ascii "\",\"port\":" ++ decimalInt port ++
      graphHint graph_execution ++
      (if error = [] then [] else ascii ",\"error\":\"" ++ json_escape error ++ ascii "\"") ++ ascii "\x7d")]

def announce (p : Params) (s : State) : ByteString :=
  announcement p.runner_id p.advertise_host s.port p.discovery_target s.announced_graph_execution p.discovery_timeout_ms

/-- Whole milliseconds between two instants, as `duration_cast` counts them. -/
def age (now last : Time) : Int := (now - last).tdiv 1000000

def announcesNoGraph (data : ByteString) : Bool :=
  match after (ascii "\"graph_execution\":") data with
  | none => false
  | some value => ascii "false" <+: value

/-- How long an announcement is believed: no longer than it says, where it says so. -/
def leaseTimeout (p : Params) (advertised_ttl : Int) : Int :=
  if advertised_ttl > 0 then min p.discovery_timeout_ms advertised_ttl else p.discovery_timeout_ms

def select (p : Params) (s : State) (data : ByteString) (now : Time) (graph_execution : Option Bool) : State where
  host := json_string data (ascii "host")
  port := json_int data (ascii "port")
  discovered := true
  discovered_runner_id := json_string data (ascii "runner_id")
  last_discovery := now
  discovered_timeout_ms := leaseTimeout p (json_int data (ascii "ttl_ms"))
  discovered_graph_execution := graph_execution
  announced_graph_execution := s.announced_graph_execution

/-- The announcements that are passed by without a word: a nameless runner, this one, another schema or
transport, one that is not ready, and one of another target. -/
def passedBy (p : Params) (data : ByteString) : Prop :=
  p.auto_discover = false ∨
    json_string data (ascii "runner_id") = [] ∨ json_string data (ascii "runner_id") = p.runner_id ∨
    json_int data (ascii "schema_version") ≠ 1 ∨
    json_string data (ascii "transport") ≠ ascii "onnx-remote-v5" ∨ json_bool data (ascii "ready") = false ∨
    (p.discovery_target ≠ [] ∧ json_string data (ascii "target") ≠ p.discovery_target)

instance (p : Params) (data : ByteString) : Decidable (passedBy p data) := inferInstanceAs (Decidable (_ ∨ _))

def unreachable (data : ByteString) : Prop :=
  json_string data (ascii "host") = [] ∨ json_int data (ascii "port") ≤ 0 ∨ json_int data (ascii "port") > 65535

instance (data : ByteString) : Decidable (unreachable data) := inferInstanceAs (Decidable (_ ∨ _))

def heldByAnother (s : State) (data : ByteString) (now : Time) : Prop :=
  s.discovered = true ∧ json_string data (ascii "runner_id") ≠ s.discovered_runner_id ∧
    age now s.last_discovery ≤ s.discovered_timeout_ms

instance (s : State) (data : ByteString) (now : Time) : Decidable (heldByAnother s data now) :=
  inferInstanceAs (Decidable (_ ∧ _))

def discovery_status (p : Params) (state : String) (data error : ByteString) (graph_execution : Option Bool) :
    List Effect :=
  publish_discovery_status p (ascii state) (json_string data (ascii "runner_id")) (json_string data (ascii "host"))
    (json_int data (ascii "port")) error graph_execution

def queryOf (data : ByteString) (answer : Query) : Effect :=
  .queried (json_string data (ascii "host")) (json_int data (ascii "port")) answer

def lacksGraph (p : Params) (answer : Query) : Prop :=
  p.require_graph_execution = true ∧ answer.graph_execution ≠ some true

instance (p : Params) (answer : Query) : Decidable (lacksGraph p answer) := inferInstanceAs (Decidable (_ ∧ _))

/-- An announcement that nothing stands against is verified, and then selected. -/
def verify (p : Params) (s : State) (data : ByteString) (now : Time) (answer : Query) : State × List Effect :=
  if p.verify_discovery = false then
    (select p s data now none, discovery_status p "selected" data [] none)
  else
    match answer with
    | .failed error => (s, queryOf data answer :: discovery_status p "rejected" data error none)
    | .answered _ =>
      if lacksGraph p answer then
        (s, queryOf data answer :: discovery_status p "rejected" data
          (if answer.capability_error = [] then ascii "runner does not advertise graph execution"
            else answer.capability_error) none)
      else
        (select p s data now answer.graph_execution,
          queryOf data answer :: discovery_status p "selected" data [] answer.graph_execution)

/-- One announcement; `answer` is what a capability query of its runner would bring. -/
def discover (p : Params) (s : State) (data : ByteString) (now : Time) (answer : Query) : State × List Effect :=
  if passedBy p data then (s, [])
  else if p.require_graph_execution = true ∧ announcesNoGraph data = true then
    (s, discovery_status p "rejected" data (ascii "runner announces graph_execution:false") none)
  else if unreachable data then (s, [])
  else if heldByAnother s data now then (s, [])
  else verify p s data now answer

def expire_discovery (p : Params) (s : State) (now : Time) : State × List Effect :=
  if p.auto_discover = false ∨ s.discovered = false ∨ p.discovery_timeout_ms ≤ 0 then (s, []) else
  if age now s.last_discovery ≤ s.discovered_timeout_ms then (s, []) else
  ({ s with
      host := p.configured_host
      port := p.configured_port
      discovered := false
      discovered_runner_id := []
      discovered_graph_execution := none },
    publish_discovery_status p (ascii "expired") s.discovered_runner_id s.host s.port [] s.discovered_graph_execution)

/-- The announce timer: expiry first, then the announcement. -/
def timer (p : Params) (s : State) (now : Time) : State × List Effect :=
  ((expire_discovery p s now).1,
    (expire_discovery p s now).2 ++ [.published (announce p (expire_discovery p s now).1)])

def query_capabilities (s : State) (answer : Query) : State × List Effect :=
  ({ s with announced_graph_execution := answer.graph_execution }, [.queried s.host s.port answer])

def unavailable (p : Params) (s : State) (error : ByteString) : List Effect :=
  publish_discovery_status p (ascii "unavailable") s.discovered_runner_id s.host s.port error none

def health (p : Params) (s : State) (answer : Query) : State × List Effect :=
  match answer with
  | .failed error => ((query_capabilities s answer).1, (query_capabilities s answer).2 ++ unavailable p s error)
  | .answered _ =>
    ((query_capabilities s answer).1, (query_capabilities s answer).2 ++
      publish_discovery_status p (ascii "ready") s.discovered_runner_id s.host s.port [] none)

def capabilities (p : Params) (s : State) (answer : Query) : State × List Effect :=
  match answer with
  | .failed error => ((query_capabilities s answer).1, (query_capabilities s answer).2 ++ unavailable p s error)
  | .answered _ => query_capabilities s answer

/-- The endpoint that `forward` connects to. -/
def endpoint (s : State) : ByteString × Int := (s.host, s.port)

inductive Event
  | announcement (data : ByteString) (answer : Query)
  | tick
  | health (answer : Query)
  | capabilities (answer : Query)

def react (p : Params) (s : State) (now : Time) : Event → State × List Effect
  | .announcement data answer => discover p s data now answer
  | .tick => timer p s now
  | .health answer => health p s answer
  | .capabilities answer => capabilities p s answer

/-- A callback that has returned: when it began, when it ended and what it did. -/
structure Record where
  event : Event
  began : Time
  ended : Time
  effects : List Effect

/-- The bridge with the clock and the callbacks it has run, the latest first. -/
structure World where
  bridge : State
  clock : Time
  log : List Record

/-- A callback that runs from `began` to `ended`, after all those before it. -/
structure Callback where
  event : Event
  began : Time
  ended : Time

def step (p : Params) (w : World) (c : Callback) : Option World :=
  if w.clock ≤ c.began ∧ c.began ≤ c.ended then
    some ⟨(react p w.bridge c.began c.event).1, c.ended,
      ⟨c.event, c.began, c.ended, (react p w.bridge c.began c.event).2⟩ :: w.log⟩
  else none

def World.start (p : Params) (probe : Query) (clock : Time) : World := ⟨Bridge.start p probe, clock, []⟩

end Onnxsim.Discovery.Bridge

namespace Onnxsim.Discovery.Leases

open List Lib.Bytes Lib.Leases Lib.Runs Storage.Pool
open Text Announcements Bridge

abbrev RunnerLease := Lease ByteString (ByteString × Int) Time

/-- The lease that the bridge holds, by what its fields say. -/
def lease (s : State) : Option RunnerLease :=
  if s.discovered = true then some ⟨s.discovered_runner_id, endpoint s, s.last_discovery, s.discovered_timeout_ms⟩
  else none

def offered (p : Params) (data : ByteString) (now : Time) : RunnerLease where
  holder := json_string data (ascii "runner_id")
  grant := (json_string data (ascii "host"), json_int data (ascii "port"))
  since := now
  term := leaseTimeout p (json_int data (ascii "ttl_ms"))

def configured (p : Params) : ByteString × Int := (p.configured_host, p.configured_port)

variable {p : Params} {s : State} {data : ByteString} {now : Time} {answer : Query}

theorem lease_of_discovered (h : s.discovered = true) :
    lease s = some ⟨s.discovered_runner_id, endpoint s, s.last_discovery, s.discovered_timeout_ms⟩ := if_pos h

theorem lease_of_not_discovered (h : s.discovered = false) : lease s = none := by
  rw [lease, h]
  rfl

variable {text error : ByteString} {graph : Option Bool}

theorem published_notMem_status {state id host : ByteString} {port : Int} :
    Effect.published text ∉ publish_discovery_status p state id host port error graph := by
  rw [publish_discovery_status]
  split
  · exact not_mem_nil
  · simp

theorem published_notMem_discovery_status {state : String} :
    Effect.published text ∉ discovery_status p state data error graph := published_notMem_status

/-- What a verified announcement leads to: the state as it was, or the selection of a runner that answered. -/
theorem verify_cases (p : Params) (s : State) (data : ByteString) (now : Time) (answer : Query) :
    (verify p s data now answer).1 = s ∨
      (∃ graph, (verify p s data now answer).1 = select p s data now graph) ∧
        (p.verify_discovery = true → ∃ manifest, answer = .answered manifest ∧
          queryOf data answer ∈ (verify p s data now answer).2) := by
  unfold verify
  by_cases hv : p.verify_discovery = false
  · rw [if_pos hv]
    exact .inr ⟨⟨_, rfl⟩, fun h => absurd (hv.symm.trans h) Bool.false_ne_true⟩
  · rw [if_neg hv]
    cases answer with
    | failed error => exact .inl rfl
    | answered manifest =>
      by_cases hg : lacksGraph p (.answered manifest)
      · rw [if_pos hg]
        exact .inl rfl
      · rw [if_neg hg]
        exact .inr ⟨⟨_, rfl⟩, fun _ => ⟨_, rfl, mem_cons_self⟩⟩

/-- What an announcement that changes the bridge has to be: one with no live lease in its way, a port that can
be connected to, and a runner that answered. -/
structure Selects (p : Params) (s : State) (data : ByteString) (now : Time) (answer : Query)
    (r : State × List Effect) : Prop where
  state : ∃ graph, r.1 = select p s data now graph
  free : ¬ heldByAnother s data now
  reachable : ¬ unreachable data
  verified : p.verify_discovery = true → ∃ manifest, answer = .answered manifest ∧ queryOf data answer ∈ r.2

theorem discover_cases (p : Params) (s : State) (data : ByteString) (now : Time) (answer : Query) :
    (discover p s data now answer).1 = s ∨ Selects p s data now answer (discover p s data now answer) := by
  rw [discover]
  by_cases hpassed : passedBy p data
  · rw [if_pos hpassed]
    exact .inl rfl
  by_cases hgraph : p.require_graph_execution = true ∧ announcesNoGraph data = true
  · rw [if_neg hpassed, if_pos hgraph]
    exact .inl rfl
  by_cases hreach : unreachable data
  · rw [if_neg hpassed, if_neg hgraph, if_pos hreach]
    exact .inl rfl
  by_cases hheld : heldByAnother s data now
  · rw [if_neg hpassed, if_neg hgraph, if_neg hreach, if_pos hheld]
    exact .inl rfl
  rw [if_neg hpassed, if_neg hgraph, if_neg hreach, if_neg hheld]
  exact (verify_cases p s data now answer).imp_right fun h => ⟨h.1, hheld, hreach, h.2⟩

theorem published_notMem_verify : Effect.published text ∉ (verify p s data now answer).2 := by
  unfold verify
  split
  · exact published_notMem_discovery_status
  · cases answer with
    | failed error =>
      intro h
      cases mem_cons.mp h with
      | inl h => cases h
      | inr h => exact published_notMem_discovery_status h
    | answered manifest =>
      dsimp only
      split
      all_goals
        intro h
        cases mem_cons.mp h with
        | inl h => cases h
        | inr h => exact published_notMem_discovery_status h

theorem published_notMem_discover : Effect.published text ∉ (discover p s data now answer).2 := by
  rw [discover]
  split
  · exact not_mem_nil
  · split
    · exact published_notMem_discovery_status
    · split
      · exact not_mem_nil
      · split
        · exact not_mem_nil
        · exact published_notMem_verify

theorem lease_discover (p : Params) (s : State) (data : ByteString) (now : Time) (answer : Query) :
    lease (discover p s data now answer).1 = lease s ∨
      lease (discover p s data now answer).1 = offer age (lease s) now (offered p data now) := by
  cases discover_cases p s data now answer with
  | inl h => exact .inl (congrArg lease h)
  | inr h =>
    obtain ⟨graph, hs⟩ := h.state
    have hnew : lease (discover p s data now answer).1 = some (offered p data now) := by
      rw [hs]
      rfl
    right
    rw [hnew, lease]
    by_cases hd : s.discovered = true
    · rw [if_pos hd, offer, if_neg]
      intro hc
      exact h.free ⟨hd, hc.1, hc.2⟩
    · rw [if_neg hd]
      rfl

theorem lease_expire_discovery (hauto : p.auto_discover = true) (htimeout : 0 < p.discovery_timeout_ms) (s : State)
    (now : Time) : lease (expire_discovery p s now).1 = settle age (lease s) now := by
  rw [expire_discovery]
  by_cases hd : s.discovered = true
  · have hon : ¬ (p.auto_discover = false ∨ s.discovered = false ∨ p.discovery_timeout_ms ≤ 0) := by
      simp [hauto, hd, htimeout]
    rw [if_neg hon, lease_of_discovered hd, settle]
    by_cases halive : age now s.last_discovery ≤ s.discovered_timeout_ms
    · rw [if_pos halive, lease_of_discovered hd]
      exact (if_pos halive).symm
    · rw [if_neg halive]
      exact (if_neg halive).symm
  · have hd' : s.discovered = false := Bool.eq_false_of_not_eq_true hd
    rw [if_pos (.inr (.inl hd')), lease_of_not_discovered hd']
    rfl

theorem expire_discovery_cases (p : Params) (s : State) (now : Time) :
    (expire_discovery p s now).1 = s ∨
      endpoint (expire_discovery p s now).1 = configured p ∧ lease (expire_discovery p s now).1 = none := by
  rw [expire_discovery]
  split
  · exact .inl rfl
  · split
    · exact .inl rfl
    · exact .inr ⟨rfl, rfl⟩

theorem published_notMem_expire_discovery : Effect.published text ∉ (expire_discovery p s now).2 := by
  rw [expire_discovery]
  split
  · exact not_mem_nil
  · split
    · exact not_mem_nil
    · exact published_notMem_status

theorem published_mem_timer :
    Effect.published text ∈ (timer p s now).2 ↔ text = announce p (expire_discovery p s now).1 := by
  rw [timer, mem_append, or_iff_right published_notMem_expire_discovery, mem_singleton,
    Effect.published.injEq]

theorem health_state (p : Params) (s : State) (answer : Query) : (health p s answer).1 = (query_capabilities s answer).1 := by
  cases answer <;> rfl

theorem capabilities_state (p : Params) (s : State) (answer : Query) :
    (capabilities p s answer).1 = (query_capabilities s answer).1 := by
  cases answer <;> rfl

theorem published_notMem_query_capabilities {answer : Query} :
    Effect.published text ∉ (query_capabilities s answer).2 := by
  intro h
  cases mem_singleton.mp h

theorem published_notMem_health : Effect.published text ∉ (health p s answer).2 := by
  cases answer with
  | failed error => exact fun h => (mem_append.mp h).elim published_notMem_query_capabilities published_notMem_status
  | answered manifest => exact fun h => (mem_append.mp h).elim published_notMem_query_capabilities published_notMem_status

theorem published_notMem_capabilities : Effect.published text ∉ (capabilities p s answer).2 := by
  cases answer with
  | failed error => exact fun h => (mem_append.mp h).elim published_notMem_query_capabilities published_notMem_status
  | answered manifest => exact published_notMem_query_capabilities

theorem published_mem_react {event : Event} :
    Effect.published text ∈ (react p s now event).2 ↔
      event = .tick ∧ text = announce p (expire_discovery p s now).1 := by
  cases event with
  | announcement data answer => exact iff_of_false published_notMem_discover fun h => nomatch h.1
  | tick => exact published_mem_timer.trans (and_iff_right rfl).symm
  | health answer => exact iff_of_false published_notMem_health fun h => nomatch h.1
  | capabilities answer => exact iff_of_false published_notMem_capabilities fun h => nomatch h.1

variable {w w' : World} {c : Callback}

/-- A lease that an announcement brought, whose runner answered while it was being taken up. -/
def Granted (p : Params) (log : List Record) (clock : Time) (l : RunnerLease) : Prop :=
  ∃ r ∈ log, ∃ data manifest, r.event = .announcement data (.answered manifest) ∧
    .queried l.grant.1 l.grant.2 (.answered manifest) ∈ r.effects ∧ l.since ≤ r.ended ∧ r.ended ≤ clock ∧
      l.term = leaseTimeout p (json_int data (ascii "ttl_ms"))

variable {clock : Time}

theorem Granted.mono {log log' : List Record} {clock' : Time} {l : RunnerLease} (h : Granted p log clock l)
    (hlog : log ⊆ log') (hclock : clock ≤ clock') : Granted p log' clock' l := by
  obtain ⟨r, hr, data, manifest, hev, hq, hsince, hended, hterm⟩ := h
  exact ⟨r, hlog hr, data, manifest, hev, hq, hsince, le_trans hended hclock, hterm⟩

/-- The endpoint is what the lease grants, and every lease was granted. -/
structure Kept (p : Params) (w : World) : Prop where
  inForce : endpoint w.bridge = inForce (configured p) (lease w.bridge)
  port : 0 < w.bridge.port ∧ w.bridge.port ≤ 65535
  granted : ∀ l, lease w.bridge = some l → Granted p w.log w.clock l

theorem kept_start (p : Params) (probe : Query) (clock : Time) : Kept p (World.start p probe clock) :=
  ⟨rfl, p.port_valid, fun _ h => nomatch h⟩

theorem step_eq_some (h : step p w c = some w') :
    w.clock ≤ c.began ∧ c.began ≤ c.ended ∧ w' = ⟨(react p w.bridge c.began c.event).1, c.ended,
      ⟨c.event, c.began, c.ended, (react p w.bridge c.began c.event).2⟩ :: w.log⟩ := by
  rw [step] at h
  split at h
  next ht => exact ⟨ht.1, ht.2, (Option.some.inj h).symm⟩
  · cases h

theorem kept_of_same {s : State} {r : Record} (hk : Kept p w) (hlease : lease s = lease w.bridge)
    (hend : endpoint s = endpoint w.bridge) (hclock : w.clock ≤ clock) : Kept p ⟨s, clock, r :: w.log⟩ where
  inForce := by rw [hend, hlease, hk.inForce]
  port := by
    have hp : s.port = w.bridge.port := congrArg Prod.snd hend
    rw [hp]
    exact hk.port
  granted := fun l hl => (hk.granted l (hlease ▸ hl)).mono (subset_cons_self _ _) hclock

theorem kept_step (hverify : p.verify_discovery = true) (hk : Kept p w) (h : step p w c = some w') : Kept p w' := by
  obtain ⟨hbegan, hended, rfl⟩ := step_eq_some h
  have hclock : w.clock ≤ c.ended := le_trans hbegan hended
  obtain ⟨event, began, ended⟩ := c
  cases event with
  | announcement data answer =>
    cases discover_cases p w.bridge data began answer with
    | inl hs => exact kept_of_same hk (congrArg lease hs) (congrArg endpoint hs) hclock
    | inr hs =>
      obtain ⟨graph, hsel⟩ := hs.state
      obtain ⟨manifest, rfl, hq⟩ := hs.verified hverify
      have hlease : lease (discover p w.bridge data began (.answered manifest)).1 = some (offered p data began) := by
        rw [hsel]
        rfl
      have hend : endpoint (discover p w.bridge data began (.answered manifest)).1 = (offered p data began).grant := by
        rw [hsel]
        rfl
      have hport := congrArg Prod.snd hend
      have hreach := hs.reachable
      simp only [unreachable, not_or, not_le, not_lt, gt_iff_lt] at hreach
      refine ⟨?_, ?_, ?_⟩
      · exact hend.trans (congrArg (Onnxsim.Lib.Leases.inForce (configured p)) hlease).symm
      · simp only [react]
        simp only [endpoint, offered] at hport
        rw [hport]
        exact hreach.2
      · intro l hl
        cases hlease.symm.trans hl
        exact ⟨_, mem_cons_self, data, manifest, rfl, hq, hended, le_refl _, rfl⟩
  | tick =>
    cases expire_discovery_cases p w.bridge began with
    | inl hs => exact kept_of_same hk (congrArg lease hs) (congrArg endpoint hs) hclock
    | inr hs =>
      have hport := congrArg Prod.snd hs.1
      refine ⟨?_, ?_, ?_⟩
      · exact hs.1.trans (congrArg (Onnxsim.Lib.Leases.inForce (configured p)) hs.2).symm
      · simp only [react, timer]
        simp only [endpoint, configured] at hport
        rw [hport]
        exact p.port_valid
      · intro l hl
        cases hs.2.symm.trans hl
  | health answer =>
    have hlease : lease (health p w.bridge answer).1 = lease w.bridge := by
      rw [health_state]
      rfl
    have hend : endpoint (health p w.bridge answer).1 = endpoint w.bridge := by
      rw [health_state]
      rfl
    exact kept_of_same hk hlease hend hclock
  | capabilities answer =>
    have hlease : lease (capabilities p w.bridge answer).1 = lease w.bridge := by
      rw [capabilities_state]
      rfl
    have hend : endpoint (capabilities p w.bridge answer).1 = endpoint w.bridge := by
      rw [capabilities_state]
      rfl
    exact kept_of_same hk hlease hend hclock

theorem kept_run {probe : Query} (hverify : p.verify_discovery = true)
    (h : Run (step p) (fun _ _ => True) (World.start p probe clock) w) : Kept p w :=
  h.induct (kept_start p probe clock) fun _ _ _ hk _ hs => kept_step hverify hk hs

end Onnxsim.Discovery.Leases
