import UrBackup.Internet.Lists

/-! Only a client that has proved that it knows a key is put into a list of connections. -/
namespace UrBackup

open InternetService InternetServiceConnector

variable {crypto : ICryptoFactory} {md5 : List UInt8 → Vector UInt8 16} {db : SettingsDb}
  {env : WorkerEnv} {e : InternetServiceEvent} {es : List InternetServiceEvent} {i : Nat}
  {s s' : InternetService} {c c' : InternetServiceConnector}

/-- The next packet of a connection asks for authentication as a client, with an hmac that is made
with a key of this client: the one of the database, or a token that was generated for the client
and that nobody has presented. -/
def Authenticates (crypto : ICryptoFactory) (md5 : List UInt8 → Vector UInt8 16) (i : Nat)
    (clientname : Bytes) (s : InternetService) (e : InternetServiceEvent) : Prop :=
  (∃ env, e = .work i env) ∧ ∃ c packet tcpstack id rd authId key,
    s.connectors i = some c ∧ c.pc = .packets ∧ c.state = .auth ∧
    c.tcpstack.getPacket md5 = some (some packet, tcpstack) ∧
    CRData.getChar (CRData.set packet) = (some id, rd) ∧ AuthId.ofChar id = some authId ∧
    (readAuthMessage authId rd).clientname = some clientname ∧ key ≠ [] ∧
    Proves crypto c (readAuthMessage authId rd) key ∧
    if authId.isToken then
      ∃ tokenId, (readAuthMessage authId rd).tokenId = some tokenId ∧
        UnusedToken s.shared.tokenLog tokenId clientname key
    else DatabaseKey s.db clientname key

theorem tokensUnused_timeOut {shared : SharedConnections} {pc : WorkerPc}
    (hunused : shared.TokensUnused) : (c.timeOut i shared pc).2.TokensUnused := by
  rw [timeOut]
  split
  · exact hunused
  · change (shared.removeConnection i c.clientname).TokensUnused
    rw [SharedConnections.removeConnection]
    split
    · exact hunused
    · exact hunused

theorem work_tokensUnused {shared shared' : SharedConnections} (hunused : shared.TokensUnused)
    (h : c.work crypto md5 i db env shared = some (c', shared')) : shared'.TokensUnused := by
  rw [work] at h
  cases hpc : c.pc with
  | idle => simp only [hpc] at h; cases h
  | finished => simp only [hpc] at h; cases h
  | destroyed => simp only [hpc] at h; cases h
  | stopping => simp only [hpc] at h; cases h; exact hunused
  | running => simp only [hpc] at h; cases h; exact hunused
  | connecting => simp only [hpc] at h; cases h; exact hunused
  | pinging => simp only [hpc] at h; cases h; exact hunused
  | registered => simp only [hpc] at h; cases h; exact hunused
  | confirming => simp only [hpc] at h; cases h; exact hunused
  | registering => simp only [hpc] at h; cases h; exact hunused
  | ponged => simp only [hpc] at h; cases h; exact hunused
  | answered => simp only [hpc] at h; cases h; exact hunused
  | pingTimeout =>
    simp only [hpc] at h
    have htokens := @tokensUnused_timeOut i c shared .finished hunused
    rw [Option.some.inj h] at htokens
    exact htokens
  | lost =>
    simp only [hpc] at h
    have htokens := @tokensUnused_timeOut i c shared .idle hunused
    rw [Option.some.inj h] at htokens
    exact htokens
  | packets =>
    simp only [hpc] at h
    cases nextPacket_cases h with
    | inl hnone =>
      obtain ⟨tcpstack, -, rfl⟩ := hnone
      exact hunused
    | inr hsome =>
      obtain ⟨packet, tcpstack, -, -, -, htokens⟩ := hsome
      exact htokens hunused
  | replying errmsg hmacKey clientChallenge =>
    simp only [hpc, reply.eq_def] at h
    split at h
    · cases h
      exact hunused
    · split at h
      · cases h
        exact hunused.generateOnetimeToken
      · cases h
        exact hunused

theorem work_authenticates {shared shared' : SharedConnections} (hauth : c.state = .auth)
    (hauth' : c'.state ≠ .auth) (hok : ConnectorOk c)
    (h : c.work crypto md5 i db env shared = some (c', shared')) :
    c.pc = .packets ∧ ∃ packet tcpstack, c.tcpstack.getPacket md5 = some (some packet, tcpstack) ∧
      AuthenticatesWith crypto c db shared.onetimeTokens packet c'.clientname := by
  rw [work] at h
  have hsame : c'.state = c.state → False := fun hstate => hauth' (hstate.trans hauth)
  cases hpc : c.pc with
  | idle => simp only [hpc] at h; cases h
  | finished => simp only [hpc] at h; cases h
  | destroyed => simp only [hpc] at h; cases h
  | stopping => simp only [hpc] at h; cases h; exact (hsame rfl).elim
  | running =>
    simp only [hpc] at h
    cases h
    refine (hsame ?_).elim
    rw [runState]
    split_ifs <;> rfl
  | connecting => exact absurd hauth (hok.taken (hok.started (hok.connects hpc))).1
  | pinging =>
    simp only [hpc] at h
    cases h
    refine (hsame ?_).elim
    rw [runPing]
    split_ifs <;> rfl
  | registered => exact absurd (hauth.symm.trans (hok.registers (Or.inr hpc))) (by simp)
  | confirming => simp only [hpc] at h; cases h; exact (hsame rfl).elim
  | registering => simp only [hpc] at h; cases h; exact (hsame rfl).elim
  | ponged => simp only [hpc] at h; cases h; exact (hsame rfl).elim
  | answered => simp only [hpc] at h; cases h; exact (hsame rfl).elim
  | pingTimeout =>
    simp only [hpc, timeOut] at h
    split at h
    · cases h
      exact (hsame rfl).elim
    · cases h
      exact (hsame rfl).elim
  | lost =>
    simp only [hpc, timeOut] at h
    split at h
    · cases h
      exact (hsame rfl).elim
    · cases h
      exact (hsame rfl).elim
  | replying errmsg hmacKey clientChallenge =>
    simp only [hpc, reply.eq_def] at h
    split at h
    · cases h
      exact (hsame rfl).elim
    · split at h
      · cases h
        exact (hsame rfl).elim
      · cases h
        exact (hsame rfl).elim
  | packets =>
    simp only [hpc] at h
    cases nextPacket_cases h with
    | inl hnone =>
      obtain ⟨tcpstack, rfl, -⟩ := hnone
      exact (hsame rfl).elim
    | inr hsome =>
      obtain ⟨packet, tcpstack, hget, hreceived, -, -⟩ := hsome
      cases hreceived with
      | ignored heq => exact (hsame (by rw [heq])).elim
      | attempted _ _ _ hstate' => exact absurd hstate' hauth'
      | accepted _ _ _ _ hwith => exact ⟨rfl, packet, tcpstack, hget, hwith⟩
      | capa hstate => exact absurd (hauth.symm.trans hstate) (by simp)
      | pong hstate => exact absurd (hauth.symm.trans hstate) (by simp)
      | connected hstate => exact absurd (hauth.symm.trans hstate) (by simp)

/-- How a connection has changed in a step. -/
inductive ConnectorStep (crypto : ICryptoFactory) (md5 : List UInt8 → Vector UInt8 16)
    (s : InternetService) (e : InternetServiceEvent) (i : Nat) (c' : InternetServiceConnector) : Prop where
  | opened (hstate : c'.state = .auth) (hpc : c'.pc = .idle) (hconnected : c'.isConnected = false)
  | worked (c : InternetServiceConnector) (env : WorkerEnv) (shared : SharedConnections)
      (he : e = .work i env) (hc : s.connectors i = some c)
      (hwork : c.work crypto md5 i s.db env s.shared = some (c', shared))
  | other (c : InternetServiceConnector) (hc : s.connectors i = some c) (hstate : c'.state = c.state)
      (hconnected : c'.isConnected = c.isConnected)
      (hpc : c'.pc = c.pc ∨ c'.pc ≠ .answered ∧ c'.pc ≠ .confirming)

theorem connectorStep_set {t : InternetService} {j : Nat} {d : InternetServiceConnector}
    (hc' : (t.setConnector j d).connectors i = some c') (ht : t.connectors = s.connectors)
    (hd : ConnectorStep crypto md5 s e j d) :
    s.connectors i = some c' ∨ ConnectorStep crypto md5 s e i c' := by
  rw [connectors_setConnector] at hc'
  split at hc'
  · rename_i hi
    cases hc'
    exact Or.inr (hi ▸ hd)
  · rw [ht] at hc'
    exact Or.inl hc'

theorem step_connector (h : s.step crypto md5 e = some s') (hc' : s'.connectors i = some c') :
    s.connectors i = some c' ∨ ConnectorStep crypto md5 s e i c' := by
  cases e with
  | connect j challenge endpointName exchange compressionLevel now =>
    rw [step] at h
    split at h
    · cases h
      exact connectorStep_set hc' rfl (.opened rfl rfl rfl)
    · cases h
  | run j =>
    obtain ⟨d, hd, h⟩ := Option.bind_eq_some_iff.mp h
    split at h
    · cases h
      refine connectorStep_set hc' rfl (.other d hd rfl rfl (Or.inr ?_))
      rw [startRun]
      split
      · exact ⟨(by simp), (by simp)⟩
      · exact ⟨(by simp), (by simp)⟩
    · cases h
  | receive j ret =>
    obtain ⟨d, hd, h⟩ := Option.bind_eq_some_iff.mp h
    split at h
    · cases h
      have hstart : (d.startReceive ret).state = d.state ∧
          (d.startReceive ret).isConnected = d.isConnected ∧ ((d.startReceive ret).pc = d.pc ∨
            (d.startReceive ret).pc ≠ .answered ∧ (d.startReceive ret).pc ≠ .confirming) := by
        rw [startReceive]
        split
        · exact ⟨rfl, rfl, Or.inl rfl⟩
        · split
          · split
            · exact ⟨rfl, rfl, Or.inl rfl⟩
            · exact ⟨rfl, rfl, Or.inr ⟨(by simp), (by simp)⟩⟩
          · exact ⟨rfl, rfl, Or.inr ⟨(by simp), (by simp)⟩⟩
      exact connectorStep_set hc' rfl (.other d hd hstart.1 hstart.2.1 hstart.2.2)
    · cases h
  | work j env =>
    obtain ⟨d, hd, h⟩ := Option.bind_eq_some_iff.mp h
    obtain ⟨⟨d', shared⟩, hwork, h⟩ := Option.map_eq_some_iff.mp h
    cases h
    exact @connectorStep_set _ _ _ _ s _ { s with shared } j d' hc' rfl
      (.worked d env shared rfl hd hwork)
  | destroy j =>
    obtain ⟨d, hd, h⟩ := Option.bind_eq_some_iff.mp h
    split at h
    · cases h
      rw [destroy] at hc'
      split at hc'
      · exact connectorStep_set hc' rfl (.other d hd rfl rfl (Or.inr ⟨(by simp), (by simp)⟩))
      · exact connectorStep_set hc' rfl (.other d hd rfl rfl (Or.inr ⟨(by simp), (by simp)⟩))
    · cases h
  | getConnection n clientname service timeoutms now =>
    rw [step] at h
    split at h
    · cases h
      exact Or.inl hc'
    · cases h
  | call n now =>
    obtain ⟨call, hcall, h⟩ := Option.bind_eq_some_iff.mp h
    rw [callStep] at h
    cases hpc : call.pc with
    | looking =>
      simp only [hpc, takeConnection] at h
      split at h
      · cases h
        exact Or.inl hc'
      · split at h
        · cases h
          exact Or.inl hc'
        · obtain ⟨d, hd, h⟩ := Option.map_eq_some_iff.mp h
          split at h
          · cases h
            exact Or.inl hc'
          · cases h
            change (InternetService.setConnector _ _ _).connectors i = _ at hc'
            exact connectorStep_set hc' rfl (.other d hd rfl rfl (Or.inl rfl))
    | condition =>
      simp only [hpc] at h
      cases h
      exact Or.inl hc'
    | popped j =>
      simp only [hpc] at h
      obtain ⟨d, hd, h⟩ := Option.map_eq_some_iff.mp h
      cases h
      change (InternetService.setConnector _ _ _).connectors i = _ at hc'
      exact connectorStep_set hc' rfl (.other d hd rfl rfl (Or.inl rfl))
    | waiting j =>
      simp only [hpc] at h
      obtain ⟨d, hd, h⟩ := Option.map_eq_some_iff.mp h
      split at h
      · cases h
        exact Or.inl hc'
      · cases h
        change (InternetService.setConnector _ _ _).connectors i = _ at hc'
        exact connectorStep_set hc' rfl (.other d hd rfl rfl (Or.inl rfl))
    | connected j =>
      simp only [hpc] at h
      obtain ⟨d, hd, h⟩ := Option.map_eq_some_iff.mp h
      cases h
      exact Or.inl hc'
    | gotPipe j pipe =>
      simp only [hpc] at h
      obtain ⟨d, hd, h⟩ := Option.map_eq_some_iff.mp h
      cases h
      change (InternetService.setConnector _ _ _).connectors i = _ at hc'
      exact connectorStep_set hc' rfl (.other d hd rfl rfl (Or.inl rfl))
    | returned result =>
      simp only [hpc] at h
      cases h
  | getOnlineClients now =>
    cases h
    exact Or.inl hc'
  | setDb db =>
    cases h
    exact Or.inl hc'

theorem step_tokensUnused (hunused : s.shared.TokensUnused) (h : s.step crypto md5 e = some s') :
    s'.shared.TokensUnused := by
  cases e with
  | connect j challenge endpointName exchange compressionLevel now =>
    rw [step] at h
    split at h
    · cases h
      exact hunused
    · cases h
  | run j =>
    obtain ⟨d, hd, h⟩ := Option.bind_eq_some_iff.mp h
    split at h
    · cases h
      exact hunused
    · cases h
  | receive j ret =>
    obtain ⟨d, hd, h⟩ := Option.bind_eq_some_iff.mp h
    split at h
    · cases h
      exact hunused
    · cases h
  | work j env =>
    obtain ⟨d, hd, h⟩ := Option.bind_eq_some_iff.mp h
    obtain ⟨⟨d', shared⟩, hwork, h⟩ := Option.map_eq_some_iff.mp h
    cases h
    exact work_tokensUnused hunused hwork
  | destroy j =>
    obtain ⟨d, hd, h⟩ := Option.bind_eq_some_iff.mp h
    split at h
    · cases h
      rw [destroy]
      split
      · exact hunused
      · change (s.shared.removeConnection j d.clientname).TokensUnused
        rw [SharedConnections.removeConnection]
        split
        · exact hunused
        · exact hunused
    · cases h
  | getConnection n clientname service timeoutms now =>
    rw [step] at h
    split at h
    · cases h
      exact hunused
    · cases h
  | call n now =>
    obtain ⟨call, hcall, h⟩ := Option.bind_eq_some_iff.mp h
    have hsame : s'.shared.onetimeTokens = s.shared.onetimeTokens ∧
        s'.shared.tokenLog = s.shared.tokenLog := by
      rw [callStep] at h
      cases hpc : call.pc with
      | looking =>
        simp only [hpc, takeConnection] at h
        split at h
        · cases h
          exact ⟨rfl, rfl⟩
        · split at h
          · cases h
            exact ⟨rfl, rfl⟩
          · obtain ⟨d, hd, h⟩ := Option.map_eq_some_iff.mp h
            split at h
            · cases h
              exact ⟨rfl, rfl⟩
            · cases h
              exact ⟨rfl, rfl⟩
      | condition =>
        simp only [hpc] at h
        cases h
        exact ⟨rfl, rfl⟩
      | popped j =>
        simp only [hpc] at h
        obtain ⟨d, hd, h⟩ := Option.map_eq_some_iff.mp h
        cases h
        exact ⟨rfl, rfl⟩
      | waiting j =>
        simp only [hpc] at h
        obtain ⟨d, hd, h⟩ := Option.map_eq_some_iff.mp h
        split at h
        · cases h
          exact ⟨rfl, rfl⟩
        · cases h
          exact ⟨rfl, rfl⟩
      | connected j =>
        simp only [hpc] at h
        obtain ⟨d, hd, h⟩ := Option.map_eq_some_iff.mp h
        cases h
        exact ⟨rfl, rfl⟩
      | gotPipe j pipe =>
        simp only [hpc] at h
        obtain ⟨d, hd, h⟩ := Option.map_eq_some_iff.mp h
        cases h
        exact ⟨rfl, rfl⟩
      | returned result =>
        simp only [hpc] at h
        cases h
    rw [SharedConnections.TokensUnused, hsame.1, hsame.2]
    exact hunused
  | getOnlineClients now =>
    cases h
    exact hunused.getOnlineClients
  | setDb db =>
    cases h
    exact hunused

theorem initial_tokensUnused (db : SettingsDb) : (initial db).shared.TokensUnused := by
  intro id token hfind
  rw [initial, OrderedMap.find?_empty] at hfind
  cases hfind

theorem step_authenticates (hok : ServiceOk s) (hunused : s.shared.TokensUnused)
    (h : s.step crypto md5 e = some s') (hc' : s'.connectors i = some c') (hstate : c'.state ≠ .auth) :
    (∃ c, s.connectors i = some c ∧ c.state ≠ .auth ∧ c.clientname = c'.clientname) ∨
      Authenticates crypto md5 i c'.clientname s e := by
  cases step_connector h hc' with
  | inl hsame => exact Or.inl ⟨c', hsame, hstate, rfl⟩
  | inr hchange =>
    -- a connection that is past the first state keeps its name
    have hkept : ∀ c, s.connectors i = some c → c.state ≠ .auth →
        ∃ c, s.connectors i = some c ∧ c.state ≠ .auth ∧ c.clientname = c'.clientname := by
      intro c hc hpast
      obtain ⟨d, hd, hlater⟩ := (step_ok hok h).later i c hc
      rw [hc'] at hd
      cases hd
      exact ⟨c, hc, hpast, (hlater.name hpast).2.symm⟩
    cases hchange with
    | opened hauth => exact absurd hauth hstate
    | other c hc hsame => exact Or.inl (hkept c hc (hsame ▸ hstate))
    | worked c env shared he hc hwork =>
      by_cases hauth : c.state = .auth
      · obtain ⟨hpc, packet, tcpstack, hget, id, rd, authId, key, hread, hkind, hname, hne, hproves,
          hfor⟩ := work_authenticates hauth hstate (hok.connectors i c hc) hwork
        refine Or.inr ⟨⟨env, he⟩, c, packet, tcpstack, id, rd, authId, key, hc, hpc, hauth, hget,
          hread, hkind, hname, hne, hproves, ?_⟩
        rw [KeyFor, readAuthMessage_id] at hfor
        cases htoken : authId.isToken with
        | true =>
          rw [if_pos htoken] at hfor
          obtain ⟨tokenId, token, hid, hfound, hfor, hkey⟩ := hfor
          rw [if_pos rfl, ← hfor, ← hkey]
          exact ⟨tokenId, hid, hunused tokenId token hfound⟩
        | false =>
          rw [if_neg (by rw [htoken]; exact Bool.false_ne_true)] at hfor
          rw [if_neg Bool.false_ne_true]
          exact hfor
      · exact Or.inl (hkept c hc hauth)

/-- Every connection that is past the first state was authenticated as its client. -/
structure AuthenticatedSoFar (crypto : ICryptoFactory) (md5 : List UInt8 → Vector UInt8 16)
    (db : SettingsDb) (es : List InternetServiceEvent) (s : InternetService) : Prop where
  ok : ServiceOk s
  unused : s.shared.TokensUnused
  past : ∀ i c, s.connectors i = some c → c.state ≠ .auth →
    TransitionSystem.Happened (fun s e => step s crypto md5 e) (initial db) es
      (Authenticates crypto md5 i c.clientname)

theorem run_authenticated (h : run crypto md5 db es = some s) :
    AuthenticatedSoFar crypto md5 db es s := by
  refine TransitionSystem.run_history ⟨initial_ok db, initial_tokensUnused db, ?_⟩ ?_ h
  · intro i c hc
    cases hc
  · intro es s e s' hrun hbefore hstep
    refine ⟨(step_ok hbefore.ok hstep).ok, step_tokensUnused hbefore.unused hstep, ?_⟩
    intro i c' hc' hpast
    cases step_authenticates hbefore.ok hbefore.unused hstep hc' hpast with
    | inl hold =>
      obtain ⟨c, hc, hpast, hname⟩ := hold
      rw [← hname]
      exact (hbefore.past i c hc hpast).append [e]
    | inr hnow => exact .last hrun hnow

/-- A connection stands in the list of a client only after its peer has sent, over it, an hmac that
is made with a key of this client: the one of the database, or a token that was generated for the
client and that nobody had presented. -/
theorem spareConnections_authenticated {clientname : Bytes} (h : run crypto md5 db es = some s)
    (hmem : i ∈ s.shared.spareConnections clientname) :
    TransitionSystem.Happened (fun s e => step s crypto md5 e) (initial db) es
      (Authenticates crypto md5 i clientname) := by
  obtain ⟨c, hc, hlisted⟩ := (run_ok h).listed clientname i hmem
  rw [← hlisted.name]
  apply (run_authenticated h).past i c hc
  cases hlisted.state with
  | inl hstate => rw [hstate]; nofun
  | inr hstate => rw [hstate.1]; nofun

section Example

def plainCrypto : ICryptoFactory := ⟨fun password _ _ => password, fun _ _ => []⟩

def noChecksum (_ : List UInt8) : Vector UInt8 16 := Vector.replicate 16 0

def oneClient : SettingsDb := ⟨[(1, [97])], [⟨"internet_authkey", 1, [7]⟩]⟩

def onWire (msg : Bytes) : Bytes := CTCPStack.packet noChecksum true msg

def wireField (str : Bytes) : Bytes := ByteOrder.littleEndian 4 str.length ++ str

/-- A client authenticates itself and sends its capabilities, all in one read. -/
def authRun : List InternetServiceEvent :=
  [.connect 0 [1] [] 0 6 0,
    .receive 0 (onWire ([0] ++ wireField [97] ++ wireField [7] ++ wireField (List.replicate 32 5)) ++
      onWire ([6] ++ [1, 0, 0, 0]))] ++
    List.replicate 4 (.work 0 ⟨0, false, false, [9]⟩)

theorem spareConnections_authenticated_authRun :
    ∃ s, run plainCrypto noChecksum oneClient authRun = some s ∧
      TransitionSystem.Happened (fun s e => step s plainCrypto noChecksum e) (initial oneClient) authRun
        (Authenticates plainCrypto noChecksum 0 [97]) := by
  have hrun : (run plainCrypto noChecksum oneClient authRun).any
      (fun s => decide (0 ∈ s.shared.spareConnections [97])) = true := by decide +kernel
  obtain ⟨s, hs, hmem⟩ := (Option.any_eq_true _ _).mp hrun
  exact ⟨s, hs, spareConnections_authenticated hs (of_decide_eq_true hmem)⟩

end Example

end UrBackup
