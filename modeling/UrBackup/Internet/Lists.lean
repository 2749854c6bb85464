import Mathlib
import UrBackup.Internet.Worker

/-! The lists of spare connections: what stands in them, in every state that the server can
reach. -/
namespace UrBackup

/-- In a call of `ReceivePackets`, with something read. -/
def WorkerPc.receives : WorkerPc → Bool
  | .packets | .replying .. | .registering | .registered | .ponged | .answered | .confirming => true
  | _ => false

/-- What holds of a connection at all times. -/
structure ConnectorOk (c : InternetServiceConnector) : Prop where
  receives : c.pc.receives = true → c.hasTimeout = false
  registers : c.pc = .registering ∨ c.pc = .registered → c.state = .capa
  connects : c.pc = .connecting → c.doConnect = true
  started : c.doConnect = true → c.connectStart = true
  taken : c.connectStart = true → c.state ≠ .auth ∧ (c.state = .capa → c.pc = .registered)

/-- What holds of a connection that stands in the list of a name. -/
structure Listed (c : InternetServiceConnector) (clientname : Bytes) : Prop where
  name : c.clientname = clientname
  free : c.connectStart = false
  alive : c.hasTimeout = false
  there : c.pc ≠ .destroyed
  state : c.state = .authed ∨ c.state = .capa ∧ c.pc = .registered

/-- What a connection keeps. -/
structure Later (c c' : InternetServiceConnector) : Prop where
  connectStart : c.connectStart = true → c'.connectStart = true
  name : c.state ≠ .auth → c'.state ≠ .auth ∧ c'.clientname = c.clientname
  isConnected : c.isConnected = true → c'.isConnected = true

theorem Later.refl (c : InternetServiceConnector) : Later c c := ⟨id, fun h => ⟨h, rfl⟩, id⟩

/-- What a step of the thread does to the lists. -/
inductive WorkEffect (i : Nat) (c : InternetServiceConnector) (s : SharedConnections)
    (c' : InternetServiceConnector) (s' : SharedConnections) : Prop where
  | quiet (hlists : ∀ name, s'.spareConnections name = s.spareConnections name)
      (hlisted : ∀ name, Listed c name → Listed c' name)
  | registers (hnot : ∀ name, ¬ Listed c name)
      (hlists : ∀ name, s'.spareConnections name =
        if name = c.clientname then s.spareConnections c.clientname ++ [i]
        else s.spareConnections name)
      (hlisted : Listed c' c.clientname)
  | timesOut (hlists : ∀ name, s'.spareConnections name =
        if name = c.clientname then (s.spareConnections c.clientname).erase i
        else s.spareConnections name)

/-- What is kept by a step of the thread. -/
structure WorkSpec (i : Nat) (c : InternetServiceConnector) (s : SharedConnections)
    (c' : InternetServiceConnector) (s' : SharedConnections) : Prop where
  ok : ConnectorOk c'
  later : Later c c'
  effect : WorkEffect i c s c' s'

namespace InternetServiceConnector

variable {crypto : ICryptoFactory} {md5 : List UInt8 → Vector UInt8 16}
  {c c' : InternetServiceConnector} {db : SettingsDb} {env : WorkerEnv} {i : Nat}
  {s s' : SharedConnections}

theorem workSpec_of_frame (hok : ConnectorOk c) (hstart : c'.connectStart = c.connectStart)
    (hdo : c'.doConnect = c.doConnect) (htimeout : c'.hasTimeout = c.hasTimeout)
    (hconnected : c'.isConnected = c.isConnected) (hstate : c'.state = c.state)
    (hname : c'.clientname = c.clientname) (hpc : c.pc ≠ .registered)
    (hreceives : c'.pc.receives = true → c.hasTimeout = false)
    (hregisters : c'.pc ≠ .registering ∧ c'.pc ≠ .registered) (hthere : c'.pc ≠ .destroyed)
    (hconnects : c'.pc = .connecting → c.doConnect = true)
    (hlists : ∀ name, s'.spareConnections name = s.spareConnections name) :
    WorkSpec i c s c' s' := by
  constructor
  · constructor
    · intro h
      rw [htimeout]
      exact hreceives h
    · intro h
      exact absurd h (not_or.mpr hregisters)
    · intro h
      rw [hdo]
      exact hconnects h
    · rw [hdo, hstart]
      exact hok.started
    · rw [hstart, hstate]
      intro h
      obtain ⟨hauth, hcapa⟩ := hok.taken h
      exact ⟨hauth, fun h => absurd (hcapa h) hpc⟩
  · constructor
    · rw [hstart]
      exact id
    · rw [hstate]
      exact fun h => ⟨h, hname⟩
    · rw [hconnected]
      exact id
  · refine .quiet hlists ?_
    intro name h
    constructor
    · rw [hname]
      exact h.name
    · rw [hstart]
      exact h.free
    · rw [htimeout]
      exact h.alive
    · exact hthere
    · rw [hstate]
      exact Or.inl (h.state.resolve_right fun h => hpc h.2)

theorem workSpec_timeOut {pc : WorkerPc} (hok : ConnectorOk c) (hpc : c.pc = .pingTimeout ∨ c.pc = .lost)
    (hpc' : pc = .idle ∨ pc = .finished) :
    WorkSpec i c s (c.timeOut i s pc).1 (c.timeOut i s pc).2 := by
  have hnot : c.pc ≠ .registered := by
    cases hpc with
    | inl h => rw [h]; nofun
    | inr h => rw [h]; nofun
  cases hstart : c.connectStart with
  | true =>
    rw [timeOut, if_pos hstart]
    exact workSpec_of_frame hok rfl rfl rfl rfl rfl rfl hnot nofun ⟨nofun, nofun⟩ nofun nofun
      fun _ => rfl
  | false =>
    rw [timeOut, if_neg (by rw [hstart]; exact Bool.false_ne_true)]
    have hquiet : pc.receives = false ∧ pc ≠ .registering ∧ pc ≠ .registered ∧ pc ≠ .connecting := by
      cases hpc' with
      | inl h => subst h; exact ⟨rfl, nofun, nofun, nofun⟩
      | inr h => subst h; exact ⟨rfl, nofun, nofun, nofun⟩
    obtain ⟨hrec, hreg, hred, hcon⟩ := hquiet
    constructor
    · constructor
      · exact fun h => absurd (hrec.symm.trans h) Bool.false_ne_true
      · exact fun h => absurd h (not_or.mpr ⟨hreg, hred⟩)
      · exact fun h => absurd h hcon
      · exact hok.started
      · exact fun h => absurd (hstart.symm.trans h) Bool.false_ne_true
    · exact ⟨id, fun h => ⟨h, rfl⟩, id⟩
    · exact .timesOut fun name => SharedConnections.spareConnections_removeConnection

theorem workSpec_runState (hok : ConnectorOk c) (hpc : c.pc = .running) :
    WorkSpec i c s c.runState s := by
  have hnot : c.pc ≠ .registered := by
    rw [hpc]
    nofun
  have hmove : ∀ pc : WorkerPc, pc.receives = false → pc ≠ .registering ∧ pc ≠ .registered →
      pc ≠ .destroyed → (pc = .connecting → c.doConnect = true) →
      WorkSpec i c s { c with pc := pc } s := fun pc hrec hreg hthere hcon =>
    workSpec_of_frame hok rfl rfl rfl rfl rfl rfl hnot
      (fun h => absurd (hrec.symm.trans h) Bool.false_ne_true) hreg hthere hcon fun _ => rfl
  rw [runState]
  split
  · exact hmove _ rfl ⟨nofun, nofun⟩ nofun nofun
  · split
    · split
      · exact hmove _ rfl ⟨nofun, nofun⟩ nofun nofun
      · exact hmove _ rfl ⟨nofun, nofun⟩ nofun nofun
    · split
      · exact hmove _ rfl ⟨nofun, nofun⟩ nofun nofun
      · split
        · rename_i hdo
          exact hmove _ rfl ⟨nofun, nofun⟩ nofun fun _ => hdo.1
        · exact hmove _ rfl ⟨nofun, nofun⟩ nofun nofun

theorem workSpec_runPing (hok : ConnectorOk c) (hpc : c.pc = .pinging) :
    WorkSpec i c s (c.runPing env.now) s := by
  have hnot : c.pc ≠ .registered := by
    rw [hpc]
    nofun
  rw [runPing]
  split
  · exact workSpec_of_frame hok rfl rfl rfl rfl rfl rfl hnot nofun ⟨nofun, nofun⟩ nofun nofun
      fun _ => rfl
  · split
    · exact workSpec_of_frame hok rfl rfl rfl rfl rfl rfl hnot nofun ⟨nofun, nofun⟩ nofun nofun
        fun _ => rfl
    · exact workSpec_of_frame hok rfl rfl rfl rfl rfl rfl hnot nofun ⟨nofun, nofun⟩ nofun nofun
        fun _ => rfl

theorem workSpec_reply (hok : ConnectorOk c) {errmsg : Option AuthError}
    {hmacKey clientChallenge : Bytes} (hpc : c.pc = .replying errmsg hmacKey clientChallenge) :
    WorkSpec i c s (c.reply crypto env s errmsg hmacKey clientChallenge).1
      (c.reply crypto env s errmsg hmacKey clientChallenge).2 := by
  have hnot : c.pc ≠ .registered := by
    rw [hpc]
    nofun
  have hreceives : c.pc.receives = true := by
    rw [hpc]
    rfl
  rw [reply.eq_def]
  split
  · exact workSpec_of_frame hok rfl rfl rfl rfl rfl rfl hnot (fun _ => hok.receives hreceives) ⟨nofun, nofun⟩
      nofun nofun fun _ => rfl
  · split
    · exact workSpec_of_frame hok rfl rfl rfl rfl rfl rfl hnot (fun _ => hok.receives hreceives) ⟨nofun, nofun⟩
        nofun nofun fun _ => rfl
    · exact workSpec_of_frame hok rfl rfl rfl rfl rfl rfl hnot (fun _ => hok.receives hreceives) ⟨nofun, nofun⟩
        nofun nofun fun _ => rfl

theorem nextPacket_cases (h : c.nextPacket crypto md5 db env s = some (c', s')) :
    (∃ tcpstack, c' = { c with tcpstack, pc := .idle } ∧ s' = s) ∨
    ∃ packet tcpstack, c.tcpstack.getPacket md5 = some (some packet, tcpstack) ∧
      Received crypto { c with tcpstack } db s.onetimeTokens packet c' ∧
      (∀ name, s'.spareConnections name = s.spareConnections name) ∧
      (s.TokensUnused → s'.TokensUnused) := by
  obtain ⟨⟨packet, tcpstack⟩, hget, h⟩ := Option.map_eq_some_iff.mp h
  cases packet with
  | none =>
    cases h
    exact Or.inl ⟨tcpstack, rfl, rfl⟩
  | some packet =>
    cases h
    refine Or.inr ⟨packet, tcpstack, hget, receivePacket_spec, fun _ => rfl, ?_⟩
    intro hunused id token hfind
    obtain ⟨hthere, hother⟩ := receivePacket_tokens hfind
    exact UnusedToken.append (hunused id token hthere) hother

theorem workSpec_of_attempt (hok : ConnectorOk c) (hreceives : c.pc.receives = true)
    (hfree : c.connectStart = false) (hstate : c.state = .auth) (hflags : SameFlags c c')
    (hreply : ∃ errmsg hmacKey clientChallenge, c'.pc = .replying errmsg hmacKey clientChallenge)
    (hlists : ∀ name, s'.spareConnections name = s.spareConnections name) :
    WorkSpec i c s c' s' := by
  obtain ⟨errmsg, hmacKey, clientChallenge, hreply⟩ := hreply
  constructor
  · constructor
    · exact fun _ => hflags.hasTimeout.trans (hok.receives hreceives)
    · rw [hreply]
      nofun
    · rw [hreply]
      nofun
    · rw [hflags.doConnect, hflags.connectStart]
      exact hok.started
    · rw [hflags.connectStart, hfree]
      nofun
  · constructor
    · exact fun h => hflags.connectStart.trans h
    · exact fun h => absurd hstate h
    · exact fun h => hflags.isConnected.trans h
  · refine .quiet hlists ?_
    intro name hlisted
    cases hlisted.state with
    | inl h => exact absurd (hstate.symm.trans h) nofun
    | inr h => exact absurd (hstate.symm.trans h.1) nofun

theorem workSpec_nextPacket (hok : ConnectorOk c) (hpc : c.pc = .packets)
    (h : c.nextPacket crypto md5 db env s = some (c', s')) : WorkSpec i c s c' s' := by
  have hnot : c.pc ≠ .registered := by
    rw [hpc]
    nofun
  have hreceives : c.pc.receives = true := by
    rw [hpc]
    rfl
  -- without a caller as long as the state is not behind the registration
  have hfree : c.state = .auth ∨ c.state = .capa → c.connectStart = false := by
    intro hearly
    by_contra htaken
    obtain ⟨hauth, hcapa⟩ := hok.taken (Bool.not_eq_false _ ▸ htaken)
    cases hearly with
    | inl h => exact hauth h
    | inr h => exact hnot (hcapa h)
  cases nextPacket_cases h with
  | inl hnone =>
    obtain ⟨tcpstack, rfl, rfl⟩ := hnone
    exact workSpec_of_frame hok rfl rfl rfl rfl rfl rfl hnot nofun ⟨nofun, nofun⟩ nofun nofun
      fun _ => rfl
  | inr hsome =>
    obtain ⟨packet, tcpstack, -, hreceived, hlists, -⟩ := hsome
    cases hreceived with
    | ignored hsame =>
      subst hsame
      exact workSpec_of_frame hok rfl rfl rfl rfl rfl rfl hnot hok.receives
        (by rw [hpc]; exact ⟨nofun, nofun⟩) (by rw [hpc]; nofun) hok.connects hlists
    | attempted hstate hflags hreply _ =>
      exact workSpec_of_attempt hok hreceives (hfree (Or.inl hstate)) hstate
        ⟨hflags.1, hflags.2, hflags.3, hflags.4⟩ hreply hlists
    | accepted hstate hflags hreply _ _ =>
      exact workSpec_of_attempt hok hreceives (hfree (Or.inl hstate)) hstate
        ⟨hflags.1, hflags.2, hflags.3, hflags.4⟩ hreply hlists
    | capa hstate pipe hsame =>
      subst hsame
      have hstart := hfree (Or.inr hstate)
      constructor
      · constructor
        · exact fun _ => hok.receives hreceives
        · exact fun _ => hstate
        · nofun
        · exact hok.started
        · exact fun h => absurd (hstart.symm.trans h) Bool.false_ne_true
      · exact ⟨id, fun h => ⟨h, rfl⟩, id⟩
      · refine .quiet hlists ?_
        intro name hlisted
        cases hlisted.state with
        | inl h => exact absurd (hstate.symm.trans h) nofun
        | inr h => exact absurd h.2 hnot
    | pong hstate hsame =>
      subst hsame
      exact workSpec_of_frame hok rfl rfl rfl rfl rfl rfl hnot (fun _ => hok.receives hreceives)
        ⟨nofun, nofun⟩ nofun nofun hlists
    | connected hstate _ hsame =>
      subst hsame
      constructor
      · exact ⟨fun _ => hok.receives hreceives, nofun, nofun, hok.started, fun _ => ⟨nofun, nofun⟩⟩
      · exact ⟨id, fun _ => ⟨nofun, rfl⟩, id⟩
      · refine .quiet hlists ?_
        intro name hlisted
        cases hlisted.state with
        | inl h => exact absurd (hstate.symm.trans h) nofun
        | inr h => exact absurd h.2 hnot

theorem work_spec (hok : ConnectorOk c) (h : c.work crypto md5 i db env s = some (c', s')) :
    WorkSpec i c s c' s' := by
  rw [work] at h
  cases hpc : c.pc with
  | idle => simp only [hpc] at h; cases h
  | finished => simp only [hpc] at h; cases h
  | destroyed => simp only [hpc] at h; cases h
  | stopping =>
    simp only [hpc] at h
    cases h
    exact workSpec_of_frame hok rfl rfl rfl rfl rfl rfl (by rw [hpc]; nofun) nofun ⟨nofun, nofun⟩
      nofun nofun fun _ => rfl
  | running =>
    simp only [hpc] at h
    cases h
    exact workSpec_runState hok hpc
  | connecting =>
    simp only [hpc] at h
    cases h
    have hstart := hok.started (hok.connects hpc)
    constructor
    · exact ⟨nofun, nofun, nofun, hok.started, fun _ => ⟨nofun, nofun⟩⟩
    · exact ⟨id, fun _ => ⟨nofun, rfl⟩, id⟩
    · refine .quiet (fun _ => rfl) ?_
      intro name hlisted
      exact absurd (hlisted.free.symm.trans hstart) Bool.false_ne_true
  | pinging =>
    simp only [hpc] at h
    cases h
    exact workSpec_runPing hok hpc
  | pingTimeout =>
    simp only [hpc] at h
    have hspec := @workSpec_timeOut c i s .finished hok (Or.inl hpc) (Or.inr rfl)
    rw [Option.some.inj h] at hspec
    exact hspec
  | lost =>
    simp only [hpc] at h
    have hspec := @workSpec_timeOut c i s .idle hok (Or.inr hpc) (Or.inl rfl)
    rw [Option.some.inj h] at hspec
    exact hspec
  | packets =>
    simp only [hpc] at h
    exact workSpec_nextPacket hok hpc h
  | replying errmsg hmacKey clientChallenge =>
    simp only [hpc] at h
    have hspec := @workSpec_reply crypto c env i s hok errmsg hmacKey clientChallenge hpc
    rw [Option.some.inj h] at hspec
    exact hspec
  | registering =>
    simp only [hpc] at h
    cases h
    have hstate := hok.registers (Or.inl hpc)
    have hstart : c.connectStart = false := by
      by_contra htaken
      have hpc' := (hok.taken (Bool.not_eq_false _ ▸ htaken)).2 hstate
      rw [hpc] at hpc'
      cases hpc'
    have htimeout := hok.receives (by rw [hpc]; rfl)
    constructor
    · exact ⟨fun _ => htimeout, fun _ => hstate, nofun, hok.started, fun h =>
        absurd (hstart.symm.trans h) Bool.false_ne_true⟩
    · exact ⟨id, fun h => ⟨h, rfl⟩, id⟩
    · refine .registers ?_ (fun _ => SharedConnections.spareConnections_register)
        ⟨rfl, hstart, htimeout, nofun, Or.inr ⟨hstate, rfl⟩⟩
      intro name hlisted
      cases hlisted.state with
      | inl h => exact absurd (hstate.symm.trans h) nofun
      | inr h => exact absurd (hpc.symm.trans h.2) nofun
  | registered =>
    simp only [hpc] at h
    cases h
    have htimeout := hok.receives (by rw [hpc]; rfl)
    constructor
    · exact ⟨fun _ => htimeout, nofun, nofun, hok.started, fun _ => ⟨nofun, nofun⟩⟩
    · exact ⟨id, fun _ => ⟨nofun, rfl⟩, id⟩
    · exact .quiet (fun _ => rfl) fun name hlisted =>
        ⟨hlisted.name, hlisted.free, hlisted.alive, nofun, Or.inl rfl⟩
  | ponged =>
    simp only [hpc] at h
    cases h
    exact workSpec_of_frame hok rfl rfl rfl rfl rfl rfl (by rw [hpc]; nofun)
      (fun _ => hok.receives (by rw [hpc]; rfl)) ⟨nofun, nofun⟩ nofun nofun
      fun _ => SharedConnections.spareConnections_seen
  | answered =>
    simp only [hpc] at h
    cases h
    exact workSpec_of_frame hok rfl rfl rfl rfl rfl rfl (by rw [hpc]; nofun)
      (fun _ => hok.receives (by rw [hpc]; rfl)) ⟨nofun, nofun⟩ nofun nofun
      fun _ => SharedConnections.spareConnections_seen
  | confirming =>
    simp only [hpc] at h
    cases h
    have htimeout := hok.receives (by rw [hpc]; rfl)
    constructor
    · refine ⟨fun _ => htimeout, nofun, nofun, hok.started, fun h => ?_⟩
      obtain ⟨hauth, hcapa⟩ := hok.taken h
      exact ⟨hauth, fun h => absurd (hpc.symm.trans (hcapa h)) nofun⟩
    · exact ⟨id, fun h => ⟨h, rfl⟩, fun _ => rfl⟩
    · refine .quiet (fun _ => rfl) ?_
      intro name hlisted
      refine ⟨hlisted.name, hlisted.free, hlisted.alive, nofun, Or.inl ?_⟩
      exact hlisted.state.resolve_right fun h => absurd (hpc.symm.trans h.2) nofun

theorem workSpec_startRun (hok : ConnectorOk c) (hpc : c.pc = .idle) :
    WorkSpec i c s c.startRun s := by
  rw [startRun]
  split
  · exact workSpec_of_frame hok rfl rfl rfl rfl rfl rfl (by rw [hpc]; nofun) nofun ⟨nofun, nofun⟩
      nofun nofun fun _ => rfl
  · exact workSpec_of_frame hok rfl rfl rfl rfl rfl rfl (by rw [hpc]; nofun) nofun ⟨nofun, nofun⟩
      nofun nofun fun _ => rfl

theorem workSpec_startReceive {ret : Bytes} (hok : ConnectorOk c) (hpc : c.pc = .idle) :
    WorkSpec i c s (c.startReceive ret) s := by
  have hnot : c.pc ≠ .registered := by
    rw [hpc]
    nofun
  have hstays : WorkSpec i c s c s :=
    workSpec_of_frame hok rfl rfl rfl rfl rfl rfl hnot hok.receives (by rw [hpc]; exact ⟨nofun, nofun⟩)
      (by rw [hpc]; nofun) hok.connects fun _ => rfl
  rw [startReceive]
  split
  · exact hstays
  · rename_i hreads
    split
    · split
      · exact hstays
      · exact workSpec_of_frame hok rfl rfl rfl rfl rfl rfl hnot nofun ⟨nofun, nofun⟩ nofun nofun
          fun _ => rfl
    · exact workSpec_of_frame hok rfl rfl rfl rfl rfl rfl hnot
        (fun _ => Bool.not_eq_true _ ▸ (not_or.mp hreads).2) ⟨nofun, nofun⟩ nofun nofun fun _ => rfl

end InternetServiceConnector

def CallerPc.holds : CallerPc → Option Nat
  | .popped i | .waiting i | .connected i | .gotPipe i _ | .returned (some (i, _)) => some i
  | .looking | .condition | .returned none => none

def CallerPc.sees : CallerPc → Option Nat
  | .connected i | .gotPipe i _ | .returned (some (i, _)) => some i
  | .looking | .condition | .popped _ | .waiting _ | .returned none => none

/-- What holds in every state of the server. -/
structure ServiceOk (s : InternetService) : Prop where
  connectors : ∀ i c, s.connectors i = some c → ConnectorOk c
  listed : ∀ name, ∀ i ∈ s.shared.spareConnections name,
    ∃ c, s.connectors i = some c ∧ Listed c name
  nodup : ∀ name, (s.shared.spareConnections name).Nodup
  held : ∀ n call i, s.calls n = some call → call.pc.holds = some i → ∃ c, s.connectors i = some c ∧
    c.connectStart = true ∧ c.state ≠ .auth ∧ c.clientname = call.clientname
  single : ∀ n n' call call' i, s.calls n = some call → s.calls n' = some call' →
    call.pc.holds = some i → call'.pc.holds = some i → n = n'
  sees : ∀ n call i, s.calls n = some call → call.pc.sees = some i →
    ∃ c, s.connectors i = some c ∧ c.isConnected = true

namespace InternetService

variable {s s' : InternetService} {i n : Nat} {c c' : InternetServiceConnector}

theorem connectors_setConnector {j : Nat} : (s.setConnector i c).connectors j =
    if j = i then some c else s.connectors j := Function.update_apply ..

theorem calls_setCall {call : GetConnection} {m : Nat} : (s.setCall n call).calls m =
    if m = n then some call else s.calls m := Function.update_apply ..

theorem later_setConnector (hc : s.connectors i = some c) (hlater : Later c c') {j : Nat}
    {d : InternetServiceConnector} (hd : s.connectors j = some d) :
    ∃ d', (s.setConnector i c').connectors j = some d' ∧ Later d d' := by
  rw [connectors_setConnector]
  by_cases hj : j = i
  · subst hj
    rw [hc] at hd
    cases hd
    exact ⟨c', if_pos rfl, hlater⟩
  · exact ⟨d, (if_neg hj).trans hd, Later.refl d⟩

end InternetService

section Invariant

open InternetService

variable {s s' : InternetService} {i n : Nat} {c c' : InternetServiceConnector}

theorem ServiceOk.callers (hok : ServiceOk s) (hcalls : s'.calls = s.calls)
    (hlater : ∀ j d, s.connectors j = some d → ∃ d', s'.connectors j = some d' ∧ Later d d') :
    (∀ n call i, s'.calls n = some call → call.pc.holds = some i → ∃ c, s'.connectors i = some c ∧
      c.connectStart = true ∧ c.state ≠ .auth ∧ c.clientname = call.clientname) ∧
    (∀ n n' call call' i, s'.calls n = some call → s'.calls n' = some call' →
      call.pc.holds = some i → call'.pc.holds = some i → n = n') ∧
    ∀ n call i, s'.calls n = some call → call.pc.sees = some i →
      ∃ c, s'.connectors i = some c ∧ c.isConnected = true := by
  rw [hcalls]
  refine ⟨?_, hok.single, ?_⟩
  · intro n call i hcall hholds
    obtain ⟨d, hd, hstart, hauth, hname⟩ := hok.held n call i hcall hholds
    obtain ⟨d', hd', hl⟩ := hlater i d hd
    obtain ⟨hauth', hname'⟩ := hl.name hauth
    exact ⟨d', hd', hl.connectStart hstart, hauth', hname'.trans hname⟩
  · intro n call i hcall hsees
    obtain ⟨d, hd, hconnected⟩ := hok.sees n call i hcall hsees
    obtain ⟨d', hd', hl⟩ := hlater i d hd
    exact ⟨d', hd', hl.isConnected hconnected⟩

/-- A step of the thread of a connection keeps the invariant. -/
theorem ServiceOk.work (hok : ServiceOk s) (hc : s.connectors i = some c)
    {shared : SharedConnections} (hspec : WorkSpec i c s.shared c' shared) :
    ServiceOk ({ s with shared }.setConnector i c') := by
  have hlater : ∀ j d, s.connectors j = some d →
      ∃ d', ({ s with shared }.setConnector i c').connectors j = some d' ∧ Later d d' :=
    fun j d hd => @later_setConnector { s with shared } i c c' hc hspec.later j d hd
  have hself : ({ s with shared }.setConnector i c').connectors i = some c' := by
    rw [connectors_setConnector, if_pos rfl]
  have hother : ∀ j, j ≠ i → ({ s with shared }.setConnector i c').connectors j = s.connectors j :=
    fun j hj => by rw [connectors_setConnector, if_neg hj]
  have hmine : ∀ name, i ∈ s.shared.spareConnections name → Listed c name := by
    intro name hmem
    obtain ⟨d, hd, hlisted⟩ := hok.listed name i hmem
    rw [hc] at hd
    cases hd
    exact hlisted
  have htheirs : ∀ name j, j ≠ i → j ∈ s.shared.spareConnections name →
      ∃ d, ({ s with shared }.setConnector i c').connectors j = some d ∧ Listed d name := by
    intro name j hj hmem
    obtain ⟨d, hd, hlisted⟩ := hok.listed name j hmem
    exact ⟨d, (hother j hj).trans hd, hlisted⟩
  obtain ⟨hheld, hsingle, hsees⟩ :=
    @ServiceOk.callers s ({ s with shared }.setConnector i c') hok rfl hlater
  constructor
  · intro j d hd
    rw [connectors_setConnector] at hd
    split at hd
    · cases hd
      exact hspec.ok
    · exact hok.connectors j d hd
  · intro name j hmem
    change j ∈ shared.spareConnections name at hmem
    cases hspec.effect with
    | quiet hlists hlisted =>
      rw [hlists] at hmem
      by_cases hj : j = i
      · subst hj
        exact ⟨c', hself, hlisted name (hmine name hmem)⟩
      · exact htheirs name j hj hmem
    | registers hnot hlists hlisted =>
      by_cases hj : j = i
      · subst hj
        rw [hlists] at hmem
        split at hmem
        · rename_i hname
          exact ⟨c', hself, hname ▸ hlisted⟩
        · exact absurd (hmine name hmem) (hnot name)
      · apply htheirs name j hj
        rw [hlists] at hmem
        split at hmem
        · rename_i hname
          rw [hname]
          exact (List.mem_append.mp hmem).resolve_right fun h => hj (List.mem_singleton.mp h)
        · exact hmem
    | timesOut hlists =>
      rw [hlists] at hmem
      by_cases hj : j = i
      · subst hj
        split at hmem
        · exact absurd hmem (hok.nodup c.clientname).not_mem_erase
        · rename_i hname
          exact absurd (hmine name hmem).name.symm hname
      · apply htheirs name j hj
        split at hmem
        · rename_i hname
          rw [hname]
          exact List.mem_of_mem_erase hmem
        · exact hmem
  · intro name
    change (shared.spareConnections name).Nodup
    cases hspec.effect with
    | quiet hlists _ =>
      rw [hlists]
      exact hok.nodup name
    | registers hnot hlists _ =>
      rw [hlists]
      split
      · refine List.nodup_append.mpr ⟨hok.nodup c.clientname, List.pairwise_singleton _ i, ?_⟩
        rintro j hj k hk rfl
        rw [List.mem_singleton.mp hk] at hj
        exact hnot c.clientname (hmine c.clientname hj)
      · exact hok.nodup name
    | timesOut hlists =>
      rw [hlists]
      split
      · exact (hok.nodup c.clientname).erase i
      · exact hok.nodup name
  · exact hheld
  · exact hsingle
  · exact hsees

/-- The invariant holds again, and every connection has kept what it has to. -/
structure StepOk (s s' : InternetService) : Prop where
  ok : ServiceOk s'
  later : ∀ i c, s.connectors i = some c → ∃ c', s'.connectors i = some c' ∧ Later c c'

theorem ServiceOk.stays (hok : ServiceOk s) : StepOk s s := ⟨hok, fun _ c hc => ⟨c, hc, .refl c⟩⟩

theorem StepOk.work (hok : ServiceOk s) (hc : s.connectors i = some c) {shared : SharedConnections}
    (hspec : WorkSpec i c s.shared c' shared) :
    StepOk s ({ s with shared }.setConnector i c') :=
  ⟨hok.work hc hspec, fun _ _ hd => @later_setConnector { s with shared } i c c' hc hspec.later _ _ hd⟩

theorem StepOk.touch (hok : ServiceOk s) (hc : s.connectors i = some c)
    (hstart : c.connectStart = true) (hstart' : c'.connectStart = true)
    (htimeout : c'.hasTimeout = c.hasTimeout) (hconnected : c'.isConnected = c.isConnected)
    (hstate : c'.state = c.state) (hname : c'.clientname = c.clientname) (hpc : c'.pc = c.pc)
    (hdo : c.doConnect = true → c'.doConnect = true) : StepOk s (s.setConnector i c') := by
  have hcok := hok.connectors i c hc
  apply @StepOk.work s i c c' hok hc s.shared
  constructor
  · constructor
    · rw [hpc, htimeout]
      exact hcok.receives
    · rw [hpc, hstate]
      exact hcok.registers
    · rw [hpc]
      exact fun h => hdo (hcok.connects h)
    · exact fun _ => hstart'
    · rw [hstate, hpc]
      exact fun _ => hcok.taken hstart
  · refine ⟨fun _ => hstart', ?_, ?_⟩
    · rw [hstate]
      exact fun h => ⟨h, hname⟩
    · rw [hconnected]
      exact id
  · exact .quiet (fun _ => rfl) fun name hlisted =>
      absurd (hlisted.free.symm.trans hstart) Bool.false_ne_true

theorem StepOk.setCall {call : GetConnection} (hok : StepOk s s')
    (hholds : ∀ i, call.pc.holds = some i → ∃ old, s'.calls n = some old ∧
      old.pc.holds = some i ∧ old.clientname = call.clientname)
    (hsees : ∀ i, call.pc.sees = some i → ∃ c, s'.connectors i = some c ∧ c.isConnected = true) :
    StepOk s (s'.setCall n call) := by
  refine ⟨?_, hok.later⟩
  constructor
  · exact hok.ok.connectors
  · exact hok.ok.listed
  · exact hok.ok.nodup
  · intro m call' i hcall' hi
    rw [calls_setCall] at hcall'
    split at hcall'
    · cases hcall'
      obtain ⟨old, hold, holdi, hname⟩ := hholds i hi
      rw [← hname]
      exact hok.ok.held n old i hold holdi
    · exact hok.ok.held m call' i hcall' hi
  · -- whoever holds a connection now has held it before
    have hbefore : ∀ m call' i, (s'.setCall n call).calls m = some call' → call'.pc.holds = some i →
        ∃ old, s'.calls m = some old ∧ old.pc.holds = some i := by
      intro m call' i hcall' hi
      rw [calls_setCall] at hcall'
      split at hcall'
      · rename_i hm
        cases hcall'
        obtain ⟨old, hold, holdi, -⟩ := hholds i hi
        exact ⟨old, hm ▸ hold, holdi⟩
      · exact ⟨call', hcall', hi⟩
    intro m m' call₁ call₂ i h₁ h₂ hi₁ hi₂
    obtain ⟨old₁, hold₁, holdi₁⟩ := hbefore m call₁ i h₁ hi₁
    obtain ⟨old₂, hold₂, holdi₂⟩ := hbefore m' call₂ i h₂ hi₂
    exact hok.ok.single m m' old₁ old₂ i hold₁ hold₂ holdi₁ holdi₂
  · intro m call' i hcall' hi
    rw [calls_setCall] at hcall'
    split at hcall'
    · cases hcall'
      exact hsees i hi
    · exact hok.ok.sees m call' i hcall' hi

theorem StepOk.shared (hok : ServiceOk s) {shared : SharedConnections}
    (hlists : ∀ name, shared.spareConnections name = s.shared.spareConnections name) :
    StepOk s { s with shared } := by
  refine ⟨⟨hok.connectors, ?_, ?_, hok.held, hok.single, hok.sees⟩, fun _ c hc => ⟨c, hc, .refl c⟩⟩
  · intro name i hmem
    apply hok.listed name i
    rw [← hlists]
    exact hmem
  · intro name
    change (shared.spareConnections name).Nodup
    rw [hlists]
    exact hok.nodup name

theorem StepOk.take {call : GetConnection} {data : SClientData} (hok : ServiceOk s)
    (hdata : s.shared.clientData.find? call.clientname = some data)
    (hlast : data.spareConnections.getLast? = some i) (hc : s.connectors i = some c) :
    StepOk s (({ s with
        shared := s.shared.setClientData call.clientname
          { data with spareConnections := data.spareConnections.dropLast }
      }.setConnector i { c with connectStart := true }).setCall n { call with pc := .popped i }) := by
  have hspare : s.shared.spareConnections call.clientname = data.spareConnections := by
    rw [SharedConnections.spareConnections, SharedConnections.clientDataAt, hdata]
    rfl
  have hsplit : s.shared.spareConnections call.clientname = data.spareConnections.dropLast ++ [i] := by
    rw [hspare]
    exact (List.dropLast_append_getLast? i hlast).symm
  have hmem : i ∈ s.shared.spareConnections call.clientname := by
    rw [hsplit]
    exact List.mem_append_right _ List.mem_cons_self
  have hnodup := hok.nodup call.clientname
  rw [hsplit] at hnodup
  have hout : i ∉ data.spareConnections.dropLast := fun h =>
    (List.nodup_append.mp hnodup).2.2 i h i List.mem_cons_self rfl
  obtain ⟨d, hd, hlisted⟩ := hok.listed call.clientname i hmem
  rw [hc] at hd
  cases hd
  have hauth : c.state ≠ .auth := by
    cases hlisted.state with
    | inl h => rw [h]; simp
    | inr h => rw [h.1]; simp
  have hlater : Later c { c with connectStart := true } := ⟨fun _ => rfl, fun h => ⟨h, rfl⟩, id⟩
  have hlaters : ∀ j d, s.connectors j = some d → ∃ d', ({ s with
        shared := s.shared.setClientData call.clientname
          { data with spareConnections := data.spareConnections.dropLast }
      }.setConnector i { c with connectStart := true }).connectors j = some d' ∧ Later d d' :=
    fun j d hd => @later_setConnector { s with shared := _ } i c _ hc hlater j d hd
  have hnobody : ∀ m call', s.calls m = some call' → call'.pc.holds ≠ some i := by
    intro m call' hcall' hholds
    obtain ⟨d, hd, hstart, -⟩ := hok.held m call' i hcall' hholds
    rw [hc] at hd
    cases hd
    exact absurd (hlisted.free.symm.trans hstart) Bool.false_ne_true
  obtain ⟨hheld, hsingle, hsees⟩ := @ServiceOk.callers s ({ s with
        shared := s.shared.setClientData call.clientname
          { data with spareConnections := data.spareConnections.dropLast }
      }.setConnector i { c with connectStart := true }) hok rfl hlaters
  refine ⟨?_, hlaters⟩
  constructor
  · intro j d hd
    change (InternetService.setConnector _ i _).connectors j = _ at hd
    rw [connectors_setConnector] at hd
    split at hd
    · cases hd
      have hcok := hok.connectors i c hc
      refine ⟨hcok.receives, hcok.registers, hcok.connects, fun _ => rfl, fun _ => ⟨hauth, ?_⟩⟩
      intro hcapa
      cases hlisted.state with
      | inl h => exact absurd (hcapa.symm.trans h) (by simp)
      | inr h => exact h.2
    · exact hok.connectors j d hd
  · intro name j hj
    change j ∈ (s.shared.setClientData call.clientname _).spareConnections name at hj
    rw [SharedConnections.spareConnections_setClientData] at hj
    have hold : j ∈ s.shared.spareConnections name ∧ j ≠ i := by
      split at hj
      · rename_i hname
        refine ⟨?_, fun h => hout (h ▸ hj)⟩
        rw [hname, hsplit]
        exact List.mem_append_left _ hj
      · rename_i hname
        refine ⟨hj, ?_⟩
        rintro rfl
        obtain ⟨d, hd, hlisted'⟩ := hok.listed name j hj
        rw [hc] at hd
        cases hd
        exact hname (hlisted'.name.symm.trans hlisted.name)
    obtain ⟨d, hd, hlisted'⟩ := hok.listed name j hold.1
    refine ⟨d, ?_, hlisted'⟩
    change (InternetService.setConnector _ i _).connectors j = _
    rw [connectors_setConnector, if_neg hold.2]
    exact hd
  · intro name
    change ((s.shared.setClientData call.clientname _).spareConnections name).Nodup
    rw [SharedConnections.spareConnections_setClientData]
    split
    · exact (List.nodup_append.mp hnodup).1
    · exact hok.nodup name
  · intro m call' j hcall' hj
    rw [calls_setCall] at hcall'
    split at hcall'
    · cases hcall'
      cases hj
      refine ⟨{ c with connectStart := true }, ?_, rfl, hauth, hlisted.name⟩
      change (InternetService.setConnector _ i _).connectors i = _
      rw [connectors_setConnector, if_pos rfl]
    · exact hheld m call' j hcall' hj
  · intro m m' call₁ call₂ j h₁ h₂ hj₁ hj₂
    rw [calls_setCall] at h₁ h₂
    split at h₁
    · rename_i hm
      split at h₂
      · rename_i hm'
        exact hm.trans hm'.symm
      · cases h₁
        cases hj₁
        exact absurd hj₂ (hnobody m' call₂ h₂)
    · split at h₂
      · cases h₂
        cases hj₂
        exact absurd hj₁ (hnobody m call₁ h₁)
      · exact hsingle m m' call₁ call₂ j h₁ h₂ hj₁ hj₂
  · intro m call' j hcall' hj
    rw [calls_setCall] at hcall'
    split at hcall'
    · cases hcall'
      cases hj
    · exact hsees m call' j hcall' hj

theorem callStep_ok {call : GetConnection} {now : Int} (hok : ServiceOk s)
    (hcall : s.calls n = some call) (h : s.callStep n call now = some s') : StepOk s s' := by
  rw [callStep] at h
  cases hpc : call.pc with
  | looking =>
    simp only [hpc, takeConnection] at h
    split at h
    · cases h
      exact hok.stays.setCall (fun _ h => by cases h) (fun _ h => by cases h)
    · rename_i data hdata
      split at h
      · cases h
        exact hok.stays.setCall (fun _ h => by cases h) (fun _ h => by cases h)
      · rename_i i hlast
        obtain ⟨c, hc, h⟩ := Option.map_eq_some_iff.mp h
        split at h
        · cases h
          exact hok.stays.setCall (fun _ h => by cases h) (fun _ h => by cases h)
        · cases h
          exact .take hok hdata hlast hc
  | condition =>
    simp only [hpc] at h
    cases h
    apply hok.stays.setCall
    · intro i hi
      split at hi
      · cases hi
      · cases hi
    · intro i hi
      split at hi
      · cases hi
      · cases hi
  | popped i =>
    simp only [hpc] at h
    obtain ⟨c, hc, h⟩ := Option.map_eq_some_iff.mp h
    cases h
    obtain ⟨d, hd, hstart, -⟩ := hok.held n call i hcall (by rw [hpc]; rfl)
    rw [hc] at hd
    cases hd
    have htouch : StepOk s (s.setConnector i { c with
        targetService := call.service, doConnect := true }) :=
      .touch hok hc hstart hstart rfl rfl rfl rfl rfl fun _ => rfl
    apply htouch.setCall
    · rintro j hj
      cases hj
      exact ⟨call, hcall, by rw [hpc]; rfl, rfl⟩
    · rintro j hj
      cases hj
  | waiting i =>
    simp only [hpc] at h
    obtain ⟨c, hc, h⟩ := Option.map_eq_some_iff.mp h
    obtain ⟨d, hd, hstart, -⟩ := hok.held n call i hcall (by rw [hpc]; rfl)
    rw [hc] at hd
    cases hd
    split at h
    · rename_i hconnected
      cases h
      apply hok.stays.setCall
      · rintro j hj
        cases hj
        exact ⟨call, hcall, by rw [hpc]; rfl, rfl⟩
      · rintro j hj
        cases hj
        exact ⟨c, hc, hconnected⟩
    · cases h
      have htouch : StepOk s (s.setConnector i { c with stopConnecting := true }) :=
        .touch hok hc hstart hstart rfl rfl rfl rfl rfl id
      exact htouch.setCall (fun _ h => by cases h) (fun _ h => by cases h)
  | connected i =>
    simp only [hpc] at h
    obtain ⟨c, hc, h⟩ := Option.map_eq_some_iff.mp h
    cases h
    apply hok.stays.setCall
    · rintro j hj
      cases hj
      exact ⟨call, hcall, by rw [hpc]; rfl, rfl⟩
    · rintro j hj
      cases hj
      exact hok.sees n call i hcall (by rw [hpc]; rfl)
  | gotPipe i pipe =>
    simp only [hpc] at h
    obtain ⟨c, hc, h⟩ := Option.map_eq_some_iff.mp h
    cases h
    obtain ⟨d, hd, hstart, -⟩ := hok.held n call i hcall (by rw [hpc]; rfl)
    rw [hc] at hd
    cases hd
    have htouch : StepOk s (s.setConnector i { c with freeConnection := true }) :=
      .touch hok hc hstart hstart rfl rfl rfl rfl rfl id
    apply htouch.setCall
    · rintro j hj
      cases hj
      exact ⟨call, hcall, by rw [hpc]; rfl, rfl⟩
    · rintro j hj
      cases hj
      obtain ⟨d, hd, hconnected⟩ := hok.sees n call i hcall (by rw [hpc]; rfl)
      obtain ⟨d', hd', hlater⟩ := htouch.later i d hd
      exact ⟨d', hd', hlater.isConnected hconnected⟩
  | returned result =>
    simp only [hpc] at h
    cases h

theorem destroy_ok (hok : ServiceOk s) (hc : s.connectors i = some c)
    (hpc : c.pc = .idle ∨ c.pc = .finished) : StepOk s (s.destroy i c) := by
  have hcok := hok.connectors i c hc
  have hnot : c.pc ≠ .registered := by
    cases hpc with
    | inl h => rw [h]; nofun
    | inr h => rw [h]; nofun
  have htaken : c.connectStart = true → c.state ≠ .auth ∧ (c.state = .capa →
      WorkerPc.destroyed = .registered) := fun h =>
    ⟨(hcok.taken h).1, fun hcapa => absurd ((hcok.taken h).2 hcapa) hnot⟩
  rw [destroy]
  split
  · rename_i hstart
    apply @StepOk.work s i c _ hok hc s.shared
    refine ⟨⟨nofun, nofun, nofun, hcok.started, htaken⟩, ⟨id, fun h => ⟨h, rfl⟩, id⟩, ?_⟩
    exact .quiet (fun _ => rfl) fun name hlisted =>
      absurd (hlisted.free.symm.trans hstart) Bool.false_ne_true
  · apply StepOk.work hok hc
    refine ⟨⟨nofun, nofun, nofun, hcok.started, htaken⟩, ⟨id, fun h => ⟨h, rfl⟩, id⟩, ?_⟩
    exact .timesOut fun name => SharedConnections.spareConnections_removeConnection

variable {crypto : ICryptoFactory} {md5 : List UInt8 → Vector UInt8 16} {e : InternetServiceEvent}

theorem step_ok (hok : ServiceOk s) (h : s.step crypto md5 e = some s') : StepOk s s' := by
  cases e with
  | connect i challenge endpointName exchange compressionLevel now =>
    rw [step] at h
    split at h
    · rename_i hnone
      cases h
      have hlater : ∀ j d, s.connectors j = some d → ∃ d', (s.setConnector i
          (.init challenge endpointName exchange compressionLevel now)).connectors j = some d' ∧
          Later d d' := by
        intro j d hd
        rw [connectors_setConnector, if_neg (by rintro rfl; rw [hnone] at hd; cases hd)]
        exact ⟨d, hd, .refl d⟩
      obtain ⟨hheld, hsingle, hsees⟩ := @ServiceOk.callers s (s.setConnector i
        (.init challenge endpointName exchange compressionLevel now)) hok rfl hlater
      refine ⟨⟨?_, ?_, hok.nodup, hheld, hsingle, hsees⟩, hlater⟩
      · intro j d hd
        rw [connectors_setConnector] at hd
        split at hd
        · cases hd
          exact ⟨fun _ => rfl, nofun, nofun, nofun, nofun⟩
        · exact hok.connectors j d hd
      · intro name j hj
        obtain ⟨d, hd, hlisted⟩ := hok.listed name j hj
        refine ⟨d, ?_, hlisted⟩
        rw [connectors_setConnector, if_neg (by rintro rfl; rw [hnone] at hd; cases hd)]
        exact hd
    · cases h
  | run i =>
    obtain ⟨c, hc, h⟩ := Option.bind_eq_some_iff.mp h
    split at h
    · rename_i hpc
      cases h
      exact @StepOk.work s i c _ hok hc s.shared
        (InternetServiceConnector.workSpec_startRun (hok.connectors i c hc) hpc)
    · cases h
  | receive i ret =>
    obtain ⟨c, hc, h⟩ := Option.bind_eq_some_iff.mp h
    split at h
    · rename_i hpc
      cases h
      exact @StepOk.work s i c _ hok hc s.shared
        (InternetServiceConnector.workSpec_startReceive (hok.connectors i c hc) hpc)
    · cases h
  | work i env =>
    obtain ⟨c, hc, h⟩ := Option.bind_eq_some_iff.mp h
    obtain ⟨⟨c', shared⟩, hwork, h⟩ := Option.map_eq_some_iff.mp h
    cases h
    exact .work hok hc (InternetServiceConnector.work_spec (hok.connectors i c hc) hwork)
  | destroy i =>
    obtain ⟨c, hc, h⟩ := Option.bind_eq_some_iff.mp h
    split at h
    · rename_i hpc
      cases h
      exact destroy_ok hok hc hpc
    · cases h
  | getConnection n clientname service timeoutms now =>
    rw [step] at h
    split at h
    · cases h
      exact hok.stays.setCall nofun nofun
    · cases h
  | call n now =>
    obtain ⟨call, hcall, h⟩ := Option.bind_eq_some_iff.mp h
    exact callStep_ok hok hcall h
  | getOnlineClients now =>
    cases h
    exact .shared hok fun name => SharedConnections.spareConnections_getOnlineClients
  | setDb db =>
    cases h
    exact ⟨⟨hok.connectors, hok.listed, hok.nodup, hok.held, hok.single, hok.sees⟩,
      fun _ c hc => ⟨c, hc, .refl c⟩⟩

theorem initial_ok (db : SettingsDb) : ServiceOk (initial db) := by
  have hnone : ∀ name, (initial db).shared.spareConnections name = [] := by
    intro name
    rw [SharedConnections.spareConnections, SharedConnections.clientDataAt, initial,
      OrderedMap.find?_empty]
    rfl
  constructor
  · intro i c hc
    cases hc
  · intro name i hi
    rw [hnone] at hi
    cases hi
  · intro name
    rw [hnone]
    exact List.nodup_nil
  · intro n call i hcall
    cases hcall
  · intro n n' call call' i hcall
    cases hcall
  · intro n call i hcall
    cases hcall

/-- The invariant holds in every state that can be reached. -/
theorem run_ok {db : SettingsDb} {es : List InternetServiceEvent}
    (h : InternetService.run crypto md5 db es = some s) : ServiceOk s :=
  TransitionSystem.run_invariant (fun _ _ _ hok hstep => (step_ok hok hstep).ok) (initial_ok db) h

end Invariant

end UrBackup
