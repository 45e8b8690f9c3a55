import Onnxsim.Discovery.Leases

namespace Onnxsim.Discovery.Discipline

open Lib.Bytes Lib.Leases Lib.Runs Storage.Pool
open Text Announcements Bridge Leases

/-- A capability query of the endpoint succeeded, on an announcement and no longer before `now` than the
announcement's runner may be believed. -/
def VerifiedWithin (p : Params) (log : List Record) (now : Time) (target : ByteString × Int) : Prop :=
  ∃ r ∈ log, ∃ data manifest, r.event = .announcement data (.answered manifest) ∧
    .queried target.1 target.2 (.answered manifest) ∈ r.effects ∧ r.ended ≤ now ∧
      age now r.ended ≤ leaseTimeout p (json_int data (ascii "ttl_ms"))

/-- What `discover` reads of a text is what was put into it. -/
structure ReadsBack (text id host : ByteString) (port : Int) (target : ByteString) (ttl_ms : Int) : Prop where
  id : json_string text (ascii "runner_id") = id
  host : json_string text (ascii "host") = host
  port : json_int text (ascii "port") = port
  target : json_string text (ascii "target") = target
  transport : json_string text (ascii "transport") = ascii "onnx-remote-v5"
  ttl_ms : json_int text (ascii "ttl_ms") = ttl_ms

/-- The announcement of the bridge itself: its own host with its own port. -/
def NamesItself (p : Params) (text : ByteString) : Prop :=
  ∃ graph, text =
    announcement p.runner_id p.advertise_host p.configured_port p.discovery_target graph p.discovery_timeout_ms

/-- What the lease discipline asks of one callback of the bridge. -/
structure Disciplined (p : Params) (w : World) (c : Callback) (w' : World) : Prop where
  steady : ∀ data answer, c.event = .announcement data answer → w.bridge.discovered = true →
    age c.began w.bridge.last_discovery ≤ w.bridge.discovered_timeout_ms →
      json_string data (ascii "runner_id") ≠ w.bridge.discovered_runner_id → endpoint w'.bridge = endpoint w.bridge
  fresh : c.event = .tick → endpoint w'.bridge = configured p ∨ VerifiedWithin p w'.log c.began (endpoint w'.bridge)
  idle : w'.bridge.discovered = false → endpoint w'.bridge = configured p
  named : ∀ text, .published text ∈ (react p w.bridge c.began c.event).2 → NamesItself p text
  readBack : ∀ text, .published text ∈ (react p w.bridge c.began c.event).2 →
    ReadsBack text p.runner_id p.advertise_host w'.bridge.port p.discovery_target p.discovery_timeout_ms

/-- The texts of the bridge hold no control character but those with an escape of their own. -/
def Readable (p : Params) : Prop :=
  (∀ ch ∈ p.runner_id, ¬ Hexed ch) ∧ (∀ ch ∈ p.advertise_host, ¬ Hexed ch) ∧ ∀ ch ∈ p.discovery_target, ¬ Hexed ch

instance (p : Params) : Decidable (Readable p) := inferInstanceAs (Decidable (_ ∧ _))

/-- A tick finds no selected runner that is still believed and listens on another port. -/
def AnnouncesItself (p : Params) (w : World) (c : Callback) : Prop :=
  c.event = .tick → Readable p ∧ (w.bridge.discovered = true →
    age c.began w.bridge.last_discovery ≤ w.bridge.discovered_timeout_ms → w.bridge.port = p.configured_port)

variable {p : Params} {w w' : World} {c : Callback}

theorem age_mono {now last last' : Time} (h : last ≤ last') : age now last' ≤ age now last :=
  Int.tdiv_le_tdiv (by decide) (Int.sub_le_sub_left h now)

theorem verifiedWithin_of_granted {log : List Record} {clock now : Time} {l : RunnerLease}
    (h : Granted p log clock l) (halive : l.Alive age now) (hclock : clock ≤ now) : VerifiedWithin p log now l.grant := by
  obtain ⟨r, hr, data, manifest, hev, hq, hsince, hended, hterm⟩ := h
  exact ⟨r, hr, data, manifest, hev, hq, le_trans hended hclock, hterm ▸ le_trans (age_mono hsince) halive⟩

theorem steady_step (hk : Kept p w) (hk' : Kept p w') (h : step p w c = some w') {data : ByteString} {answer : Query}
    (hev : c.event = .announcement data answer) (hd : w.bridge.discovered = true)
    (halive : age c.began w.bridge.last_discovery ≤ w.bridge.discovered_timeout_ms)
    (hne : json_string data (ascii "runner_id") ≠ w.bridge.discovered_runner_id) :
    endpoint w'.bridge = endpoint w.bridge := by
  have hbridge : w'.bridge = (discover p w.bridge data c.began answer).1 := by
    obtain ⟨-, -, rfl⟩ := step_eq_some h
    rw [hev]
    rfl
  have hlease : lease w'.bridge = lease w.bridge := by
    rw [hbridge]
    cases lease_discover p w.bridge data c.began answer with
    | inl hs => exact hs
    | inr hs =>
      rw [hs, lease_of_discovered hd]
      exact offer_of_alive halive hne
  rw [hk'.inForce, hlease, hk.inForce]

theorem fresh_step (hauto : p.auto_discover = true) (htimeout : 0 < p.discovery_timeout_ms) (hk : Kept p w)
    (hk' : Kept p w') (h : step p w c = some w') (hev : c.event = .tick) :
    endpoint w'.bridge = configured p ∨ VerifiedWithin p w'.log c.began (endpoint w'.bridge) := by
  obtain ⟨hbegan, hended, rfl⟩ := step_eq_some h
  have hlease : lease (react p w.bridge c.began c.event).1 = settle age (lease w.bridge) c.began := by
    rw [hev]
    exact lease_expire_discovery hauto htimeout _ _
  have hforce := hk'.inForce
  rw [hlease] at hforce
  cases hl : settle age (lease w.bridge) c.began with
  | none =>
    rw [hl] at hforce
    exact .inl hforce
  | some l =>
    obtain ⟨hheld, halive⟩ := settle_eq_some hl
    have hgranted : VerifiedWithin p w.log c.began l.grant := verifiedWithin_of_granted (hk.granted l hheld) halive hbegan
    rw [hl] at hforce
    obtain ⟨r, hr, hq⟩ := hgranted
    right
    rw [hforce]
    exact ⟨r, List.mem_cons_of_mem _ hr, hq⟩

theorem idle_state (hk : Kept p w) (hd : w.bridge.discovered = false) : endpoint w.bridge = configured p := by
  rw [hk.inForce, lease_of_not_discovered hd]
  rfl

theorem readsBack_announce_iff (hk : Kept p w) :
    ReadsBack (announce p w.bridge) p.runner_id p.advertise_host w.bridge.port p.discovery_target p.discovery_timeout_ms ↔
      Readable p := by
  rw [Readable, ← flatMap_readBack_iff, ← flatMap_readBack_iff, ← flatMap_readBack_iff]
  have hport := hk.port
  constructor
  · intro h
    exact ⟨(read_runner_id ..).symm.trans h.id, (read_host ..).symm.trans h.host, (read_target ..).symm.trans h.target⟩
  · intro h
    exact ⟨(read_runner_id ..).trans h.1, (read_host ..).trans h.2.1,
      read_port _ _ _ _ _ _ (by omega) (by omega), (read_target ..).trans h.2.2, read_transport ..,
      read_ttl_ms _ _ _ _ _ _ p.timeout_int.1 p.timeout_int.2⟩

theorem namesItself_announce_iff (hk : Kept p w) :
    NamesItself p (announce p w.bridge) ↔ w.bridge.port = p.configured_port := by
  constructor
  · rintro ⟨graph, h⟩
    have hport := hk.port
    have hvalid := p.port_valid
    have hread := congrArg (json_int · (ascii "port")) h
    dsimp only [announce] at hread
    rwa [read_port _ _ _ _ _ _ (by omega) (by omega), read_port _ _ _ _ _ _ (by omega) (by omega)] at hread
  · intro h
    exact ⟨w.bridge.announced_graph_execution, by rw [announce, h]⟩

theorem expired_port (hauto : p.auto_discover = true) (htimeout : 0 < p.discovery_timeout_ms) (hk : Kept p w) {now : Time} :
    (expire_discovery p w.bridge now).1.port = p.configured_port ↔ (w.bridge.discovered = true →
      age now w.bridge.last_discovery ≤ w.bridge.discovered_timeout_ms → w.bridge.port = p.configured_port) := by
  rw [expire_discovery]
  by_cases hd : w.bridge.discovered = true
  · have hon : ¬ (p.auto_discover = false ∨ w.bridge.discovered = false ∨ p.discovery_timeout_ms ≤ 0) := by
      simp [hauto, hd, htimeout]
    rw [if_neg hon]
    by_cases halive : age now w.bridge.last_discovery ≤ w.bridge.discovered_timeout_ms
    · rw [if_pos halive]
      exact ⟨fun h _ _ => h, fun h => h hd halive⟩
    · rw [if_neg halive]
      exact ⟨fun _ _ h => absurd h halive, fun _ => rfl⟩
  · have hd' : w.bridge.discovered = false := Bool.eq_false_of_not_eq_true hd
    rw [if_pos (.inr (.inl hd'))]
    exact ⟨fun _ h => absurd h hd, fun _ => congrArg Prod.snd (idle_state hk hd')⟩

theorem bridge_of_tick (hev : c.event = .tick) (h : step p w c = some w') :
    w'.bridge = (expire_discovery p w.bridge c.began).1 := by
  obtain ⟨-, -, rfl⟩ := step_eq_some h
  rw [hev]
  rfl

theorem announcesItself_of_disciplined (hauto : p.auto_discover = true) (htimeout : 0 < p.discovery_timeout_ms)
    (hk : Kept p w) (hk' : Kept p w') (h : step p w c = some w') (hd : Disciplined p w c w') : AnnouncesItself p w c := by
  intro hev
  have hbridge := bridge_of_tick hev h
  have hpub : .published (announce p w'.bridge) ∈ (react p w.bridge c.began c.event).2 := by
    rw [published_mem_react, hbridge]
    exact ⟨hev, rfl⟩
  have hport := (namesItself_announce_iff hk').mp (hd.named _ hpub)
  rw [hbridge] at hport
  exact ⟨(readsBack_announce_iff hk').mp (hd.readBack _ hpub), (expired_port hauto htimeout hk).mp hport⟩

theorem disciplined_of_announcesItself (hauto : p.auto_discover = true) (htimeout : 0 < p.discovery_timeout_ms)
    (hk : Kept p w) (hk' : Kept p w') (h : step p w c = some w') (ha : AnnouncesItself p w c) : Disciplined p w c w' := by
  have hpub : ∀ text, .published text ∈ (react p w.bridge c.began c.event).2 →
      c.event = .tick ∧ text = announce p w'.bridge := by
    intro text ht
    rw [published_mem_react] at ht
    rw [bridge_of_tick ht.1 h]
    exact ht
  refine ⟨fun data answer => steady_step hk hk' h, fresh_step hauto htimeout hk hk' h, idle_state hk', ?_, ?_⟩
  · intro text ht
    obtain ⟨hev, rfl⟩ := hpub text ht
    rw [namesItself_announce_iff hk', bridge_of_tick hev h]
    exact (expired_port hauto htimeout hk).mpr (ha hev).2
  · intro text ht
    obtain ⟨hev, rfl⟩ := hpub text ht
    exact (readsBack_announce_iff hk').mpr (ha hev).1

/-- In every reachable state, a callback keeps the discipline exactly when it announces the bridge itself. -/
theorem lease_discipline_iff (p : Params) (hauto : p.auto_discover = true) (hverify : p.verify_discovery = true)
    (htimeout : 0 < p.discovery_timeout_ms) {probe : Query} {clock : Time} {w w' : World} {c : Callback}
    (hrun : Run (step p) (fun _ _ => True) (World.start p probe clock) w) (h : step p w c = some w') :
    Disciplined p w c w' ↔ AnnouncesItself p w c := by
  have hk := kept_run hverify hrun
  have hk' := kept_step hverify hk h
  exact ⟨announcesItself_of_disciplined hauto htimeout hk hk' h, disciplined_of_announcesItself hauto htimeout hk hk' h⟩

def subscriber : Params where
  configured_host := ascii "127.0.0.1"
  configured_port := 39501
  port_valid := ⟨by decide, by decide⟩
  auto_discover := true
  verify_discovery := true
  require_graph_execution := false
  publish_discovery_status := true
  discovery_target := []
  advertise_host := ascii "10.0.0.1"
  runner_id := ascii "bridge_a"
  discovery_timeout_ms := 15000
  timeout_int := ⟨by decide, by decide⟩

def heard (port : String) : ByteString :=
  ascii "\x7b\"schema_version\":1,\"runner_id\":\"bridge_b\",\"host\":\"10.0.0.2\",\"port\":" ++ ascii port ++
    ascii ",\"target\":\"\",\"transport\":\"onnx-remote-v5\",\"ready\":true,\"ttl_ms\":500\x7d"

/-- The bridge after one announcement, of a runner at `port` that answered. -/
def afterHearing (port : String) : World :=
  ⟨(react subscriber (start subscriber (.failed [])) 0 (.announcement (heard port) (.answered (.ok true)))).1, 0,
    [⟨.announcement (heard port) (.answered (.ok true)), 0, 0,
      (react subscriber (start subscriber (.failed [])) 0 (.announcement (heard port) (.answered (.ok true)))).2⟩]⟩

def afterTick (w : World) : World :=
  ⟨(react subscriber w.bridge 0 .tick).1, 0, ⟨.tick, 0, 0, (react subscriber w.bridge 0 .tick).2⟩ :: w.log⟩

theorem run_afterHearing (port : String) :
    Run (step subscriber) (fun _ _ => True) (World.start subscriber (.failed []) 0) (afterHearing port) :=
  Run.tail Run.refl (a := ⟨.announcement (heard port) (.answered (.ok true)), 0, 0⟩) trivial rfl

/-- Of a runner on the bridge's own port the bridge announces nothing wrong. -/
theorem disciplined_same_port :
    Disciplined subscriber (afterHearing "39501") ⟨.tick, 0, 0⟩ (afterTick (afterHearing "39501")) :=
  (lease_discipline_iff subscriber rfl rfl (by decide) (run_afterHearing "39501") rfl).mpr fun _ =>
    ⟨by decide +kernel, fun _ _ => by decide +kernel⟩

/-- Of a runner on another port it announces its own host with that runner's port. -/
theorem undisciplined_other_port :
    ¬∀ p : Params, p.auto_discover = true → p.verify_discovery = true → 0 < p.discovery_timeout_ms →
      ∀ probe clock w c w', Run (step p) (fun _ _ => True) (World.start p probe clock) w → step p w c = some w' →
        Disciplined p w c w' := by
  intro h
  have hrun := run_afterHearing "40000"
  have hstep : step subscriber (afterHearing "40000") ⟨.tick, 0, 0⟩ = some (afterTick (afterHearing "40000")) := rfl
  have hk := kept_run rfl hrun
  have ha := announcesItself_of_disciplined rfl (by decide) hk (kept_step rfl hk hstep) hstep
    (h subscriber rfl rfl (by decide) _ _ _ _ _ hrun hstep)
  have hport := (ha rfl).2 (by decide +kernel) (by decide +kernel)
  revert hport
  decide

end Onnxsim.Discovery.Discipline
