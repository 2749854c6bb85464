import UrBackup.Internet.Service

/-! What a step of the thread that serves a connection can do. -/
namespace UrBackup

/-- The key is the one that the database has for a name. -/
def DatabaseKey (db : SettingsDb) (clientname key : Bytes) : Prop :=
  ∃ row rest, db.authkeyRows clientname = row :: rest ∧ row.value = key

/-- The key is a token that was generated for a name, and nobody has presented its id since. -/
def UnusedToken (log : List TokenEvent) (id : Nat) (clientname key : Bytes) : Prop :=
  ∃ before token after, log = before ++ .generated id token :: after ∧
    .presented id ∉ after ∧ token.clientname = clientname ∧ token.token = key

theorem UnusedToken.append {log log' : List TokenEvent} {id : Nat} {name key : Bytes}
    (h : UnusedToken log id name key) (hnot : .presented id ∉ log') :
    UnusedToken (log ++ log') id name key := by
  obtain ⟨before, token, after, rfl, hunused, hname, hkey⟩ := h
  refine ⟨before, token, after ++ log', by simp, ?_, hname, hkey⟩
  intro hmem
  exact (List.mem_append.mp hmem).elim hunused hnot

namespace SharedConnections

variable {s : SharedConnections} {clientname clientname' : Bytes} {data : SClientData} {now : Int}

theorem clientDataAt_setClientData : (s.setClientData clientname data).clientDataAt clientname' =
    if clientname' = clientname then data else s.clientDataAt clientname' := by
  rw [clientDataAt, setClientData, OrderedMap.find?_insert]
  by_cases hname : clientname' = clientname
  · rw [if_pos hname, if_pos hname.symm]
    rfl
  · rw [if_neg hname, if_neg (Ne.symm hname)]
    rfl

theorem spareConnections_setClientData :
    (s.setClientData clientname data).spareConnections clientname' =
      if clientname' = clientname then data.spareConnections else s.spareConnections clientname' := by
  rw [spareConnections, clientDataAt_setClientData]
  split
  · rfl
  · rfl

@[simp] theorem spareConnections_seen :
    (s.seen clientname now).spareConnections clientname' = s.spareConnections clientname' := by
  rw [seen, spareConnections_setClientData]
  split
  · rename_i hname
    rw [hname]
    rfl
  · rfl

theorem spareConnections_register {i : Nat} {endpointName : Bytes} :
    (s.register i clientname endpointName now).spareConnections clientname' =
      if clientname' = clientname then s.spareConnections clientname ++ [i]
      else s.spareConnections clientname' := spareConnections_setClientData

theorem spareConnections_removeConnection {i : Nat} :
    (s.removeConnection i clientname).spareConnections clientname' =
      if clientname' = clientname then (s.spareConnections clientname).erase i
      else s.spareConnections clientname' := by
  rw [removeConnection]
  split
  · rename_i hnone
    split
    · rename_i hname
      have hempty : s.spareConnections clientname = [] := by
        rw [spareConnections, clientDataAt, hnone]
        rfl
      rw [hname, hempty]
      rfl
    · rfl
  · exact spareConnections_setClientData

theorem spareConnections_removeOffline :
    (s.removeOffline now).spareConnections clientname = s.spareConnections clientname := by
  rw [spareConnections, clientDataAt, removeOffline, OrderedMap.find?_filterValues,
    spareConnections, clientDataAt]
  cases s.clientData.find? clientname with
  | none => rfl
  | some data =>
    rw [Option.filter_some]
    split
    · rfl
    · rename_i hgone
      have hempty : data.spareConnections = [] := by
        by_contra hne
        exact hgone (decide_eq_true (Or.inl hne))
      exact hempty.symm

theorem spareConnections_getOnlineClients :
    (s.getOnlineClients now).2.spareConnections clientname = s.spareConnections clientname := by
  rw [getOnlineClients]
  split
  · exact spareConnections_removeOffline
  · exact spareConnections_removeOffline

/-- Every token that is there has not been presented since it was generated. -/
def TokensUnused (s : SharedConnections) : Prop :=
  ∀ id token, s.onetimeTokens.find? id = some token →
    UnusedToken s.tokenLog id token.clientname token.token

theorem TokensUnused.generateOnetimeToken (h : s.TokensUnused) {newToken : Bytes} :
    (s.generateOnetimeToken clientname newToken now).2.TokensUnused := by
  intro id token hfind
  have hold : s.onetimeTokens.find? id = some token →
      UnusedToken (s.tokenLog ++ [.generated s.onetimeTokenId ⟨newToken, now, clientname⟩]) id
        token.clientname token.token := by
    intro hthere
    apply UnusedToken.append (h id token hthere)
    simp
  simp only [SharedConnections.generateOnetimeToken] at hfind
  split at hfind
  · exact hold hfind
  · rw [OrderedMap.find?_insert] at hfind
    split at hfind
    · rename_i hid
      cases hfind
      exact ⟨s.tokenLog, _, [], by rw [← hid]; rfl, List.not_mem_nil, rfl, rfl⟩
    · exact hold hfind

theorem TokensUnused.getOnlineClients (h : s.TokensUnused) :
    (s.getOnlineClients now).2.TokensUnused := by
  rw [SharedConnections.getOnlineClients]
  split
  · intro id token hfind
    simp only [removeOffline, removeOldTokens, OrderedMap.find?_filterValues] at hfind
    exact h id token (Option.filter_eq_some_iff.mp hfind).1
  · exact h

end SharedConnections

/-- What the caller of `getConnection` and the lists look at. -/
structure SameFlags (c c' : InternetServiceConnector) : Prop where
  connectStart : c'.connectStart = c.connectStart
  doConnect : c'.doConnect = c.doConnect
  hasTimeout : c'.hasTimeout = c.hasTimeout
  isConnected : c'.isConnected = c.isConnected

/-- A key that belongs to the name of a message, from the database or from a token. -/
def KeyFor (db : SettingsDb) (onetimeTokens : OrderedMap Nat SOnetimeToken) (msg : AuthMessage)
    (clientname key : Bytes) : Prop :=
  if msg.id.isToken then
    ∃ tokenId token, msg.tokenId = some tokenId ∧ onetimeTokens.find? tokenId = some token ∧
      token.clientname = clientname ∧ token.token = key
  else DatabaseKey db clientname key

namespace InternetServiceConnector

variable {crypto : ICryptoFactory} {c c' : InternetServiceConnector} {db : SettingsDb}
  {env : WorkerEnv} {onetimeTokens tokens' : OrderedMap Nat SOnetimeToken} {msg : AuthMessage}

theorem getAuthkeyFromDB_key {timesOut : Bool} {clientname : Bytes}
    (h : (db.getAuthkeyFromDB timesOut clientname).1 ≠ []) :
    DatabaseKey db clientname (db.getAuthkeyFromDB timesOut clientname).1 := by
  cases timesOut with
  | true => exact absurd rfl h
  | false =>
    cases hrows : db.authkeyRows clientname with
    | nil =>
      rw [SettingsDb.getAuthkeyFromDB, if_neg Bool.false_ne_true, hrows] at h
      exact absurd rfl h
    | cons row rest =>
      refine ⟨row, rest, hrows, ?_⟩
      rw [SettingsDb.getAuthkeyFromDB, if_neg Bool.false_ne_true, hrows]

/-- What a lookup leaves as it is, which tokens are left, and whose key it finds. -/
structure Lookup (c : InternetServiceConnector) (db : SettingsDb)
    (onetimeTokens : OrderedMap Nat SOnetimeToken) (msg : AuthMessage) (c' : InternetServiceConnector)
    (tokens' : OrderedMap Nat SOnetimeToken) (errmsg : Option AuthError) : Prop where
  frame : c' = { c with authkey := c'.authkey, clientPingInterval := c'.clientPingInterval }
  tokens : ∀ id token, tokens'.find? id = some token →
    onetimeTokens.find? id = some token ∧ (msg.id.isToken → msg.tokenId ≠ some id)
  key : errmsg = none → c'.authkey ≠ [] → KeyFor db onetimeTokens msg c.clientname c'.authkey

theorem lookupAuthkey_spec {timesOut : Bool} :
    Lookup c db onetimeTokens msg (c.lookupAuthkey db timesOut onetimeTokens msg).1
      (c.lookupAuthkey db timesOut onetimeTokens msg).2.1
      (c.lookupAuthkey db timesOut onetimeTokens msg).2.2.1 := by
  cases hkind : msg.id.isToken with
  | false =>
    simp only [lookupAuthkey, hkind, Bool.false_eq_true, if_false]
    constructor
    · rfl
    · intro id token hfind
      exact ⟨hfind, fun htoken => absurd (hkind.symm.trans htoken) Bool.false_ne_true⟩
    · intro _ hkey
      rw [KeyFor, if_neg (by rw [hkind]; exact Bool.false_ne_true)]
      exact getAuthkeyFromDB_key hkey
  | true =>
    simp only [lookupAuthkey, hkind, if_true]
    cases hid : msg.tokenId with
    | none =>
      constructor
      · rfl
      · intro id token hfind
        exact ⟨hfind, fun _ hsome => by rw [hid] at hsome; cases hsome⟩
      · simp
    | some tokenId =>
      cases hfound : onetimeTokens.find? tokenId with
      | none =>
        simp only [getOnetimeToken, hfound]
        constructor
        · rfl
        · intro id token hfind
          refine ⟨hfind, fun _ hsame => ?_⟩
          rw [hid] at hsame
          cases hsame
          rw [hfound] at hfind
          cases hfind
        · simp
      | some token =>
        simp only [getOnetimeToken, hfound]
        constructor
        · rfl
        · intro id other hfind
          rw [OrderedMap.find?_erase] at hfind
          split at hfind
          · cases hfind
          · rename_i hne
            refine ⟨hfind, fun _ hsame => hne ?_⟩
            rw [hid] at hsame
            exact Option.some.inj hsame
        · intro herr _
          rw [KeyFor, if_pos hkind]
          refine ⟨tokenId, token, hid, hfound, ?_, rfl⟩
          by_contra hname
          simp only [ne_eq, hname, not_false_eq_true, if_true] at herr
          split at herr
          · cases herr
          · cases herr

/-- The hmac of a message is made with a key. -/
def Proves (crypto : ICryptoFactory) (c : InternetServiceConnector) (msg : AuthMessage)
    (key : Bytes) : Prop :=
  msg.hmac = some (crypto.generateBinaryPasswordHash
    (crypto.generateBinaryPasswordHash key (salt crypto c msg) (iterations msg)) c.challenge 1)

/-- What a message that asks for authentication leaves behind. The state changes only for an hmac
that is made with a key of the name. -/
structure Attempt (crypto : ICryptoFactory) (c : InternetServiceConnector) (db : SettingsDb)
    (onetimeTokens : OrderedMap Nat SOnetimeToken) (msg : AuthMessage) (c' : InternetServiceConnector)
    (tokens' : OrderedMap Nat SOnetimeToken) : Prop where
  flags : SameFlags c c'
  pc : ∃ errmsg hmacKey clientChallenge, c'.pc = .replying errmsg hmacKey clientChallenge
  tokens : ∀ id token, tokens'.find? id = some token →
    onetimeTokens.find? id = some token ∧ (msg.id.isToken → msg.tokenId ≠ some id)
  name : c'.clientname = msg.clientname.getD c.clientname
  state : c'.state = c.state ∨ c'.state = .capa ∧
    ∃ key, key ≠ [] ∧ Proves crypto c msg key ∧ KeyFor db onetimeTokens msg c'.clientname key

theorem authenticate_spec (hread : msg.hmac = none → msg.tokenId = none) :
    Attempt crypto c db onetimeTokens msg (c.authenticate crypto db env onetimeTokens msg).1
      (c.authenticate crypto db env onetimeTokens msg).2 := by
  rw [authenticate]
  cases hhmac : msg.hmac with
  | none =>
    refine ⟨⟨rfl, rfl, rfl, rfl⟩, ⟨_, _, _, rfl⟩, ?_, rfl, Or.inl rfl⟩
    intro id token hfind
    refine ⟨hfind, fun _ hsome => ?_⟩
    rw [hread hhmac] at hsome
    cases hsome
  | some hmac =>
    have hlookup := @lookupAuthkey_spec
      { c with clientname := msg.clientname.getD c.clientname } db onetimeTokens msg env.keyTimesOut
    simp only
    generalize lookupAuthkey { c with clientname := msg.clientname.getD c.clientname } db
      env.keyTimesOut onetimeTokens msg = found at hlookup ⊢
    obtain ⟨c1, tokens1, errmsg, dbTimeout⟩ := found
    obtain ⟨hframe, htokens, hkey⟩ := hlookup
    simp only at hframe htokens hkey ⊢
    have hflags : SameFlags c c1 := by
      rw [hframe]
      exact ⟨rfl, rfl, rfl, rfl⟩
    have hname : c1.clientname = msg.clientname.getD c.clientname := by rw [hframe]
    have hstate : c1.state = c.state := by rw [hframe]
    have hsame : c1.challenge = c.challenge ∧ c1.ecdhKeyExchange = c.ecdhKeyExchange := by
      rw [hframe]
      exact ⟨rfl, rfl⟩
    have hflags' : ∀ {c2 : InternetServiceConnector}, c2.connectStart = c1.connectStart →
        c2.doConnect = c1.doConnect → c2.hasTimeout = c1.hasTimeout →
        c2.isConnected = c1.isConnected → SameFlags c c2 := fun h₁ h₂ h₃ h₄ =>
      ⟨h₁.trans hflags.1, h₂.trans hflags.2, h₃.trans hflags.3, h₄.trans hflags.4⟩
    cases hfields : fieldError msg errmsg with
    | some err =>
      exact ⟨hflags' rfl rfl rfl rfl, ⟨_, _, _, rfl⟩, htokens, hname, Or.inl hstate⟩
    | none =>
      simp only
      split
      · rename_i hne
        split
        · rename_i hequal
          refine ⟨hflags' rfl rfl rfl rfl, ⟨_, _, _, rfl⟩, htokens, hname, Or.inr ⟨rfl, ?_⟩⟩
          refine ⟨c1.authkey, hne, ?_, ?_⟩
          · rw [Proves, hhmac, ← hequal, salt, salt, hsame.1, hsame.2]
          · have hnone : errmsg = none := by
              rw [fieldError] at hfields
              split at hfields
              · cases hfields
              · split at hfields
                · cases hfields
                · exact hfields
            have hfor := hkey hnone hne
            rw [← hname] at hfor
            exact hfor
        · exact ⟨hflags' rfl rfl rfl rfl, ⟨_, _, _, rfl⟩, htokens, hname, Or.inl hstate⟩
      · exact ⟨hflags' rfl rfl rfl rfl, ⟨_, _, _, rfl⟩, htokens, hname, Or.inl hstate⟩

theorem readAuthMessage_tokenId {id : AuthId} {rd : Bytes} :
    (readAuthMessage id rd).hmac = none → (readAuthMessage id rd).tokenId = none := by
  rw [readAuthMessage]
  split
  · exact fun _ => rfl
  · split
    · exact fun _ => rfl
    · nofun

theorem readAuthMessage_clientname {id : AuthId} {rd hmac : Bytes}
    (h : (readAuthMessage id rd).hmac = some hmac) :
    ∃ clientname, (readAuthMessage id rd).clientname = some clientname := by
  rw [readAuthMessage] at h ⊢
  split at h
  · cases h
  · rename_i clientname rd' hname
    split at h
    · cases h
    · exact ⟨clientname, rfl⟩

/-- A packet asks for authentication with an hmac that is made with a key of a name. -/
def AuthenticatesWith (crypto : ICryptoFactory) (c : InternetServiceConnector) (db : SettingsDb)
    (onetimeTokens : OrderedMap Nat SOnetimeToken) (packet clientname : Bytes) : Prop :=
  ∃ id rd authId key, CRData.getChar (CRData.set packet) = (some id, rd) ∧
    AuthId.ofChar id = some authId ∧ (readAuthMessage authId rd).clientname = some clientname ∧
    key ≠ [] ∧ Proves crypto c (readAuthMessage authId rd) key ∧
    KeyFor db onetimeTokens (readAuthMessage authId rd) clientname key

/-- A packet answers the request to connect. -/
def ConnectOk (packet : Bytes) : Prop :=
  ∃ rd, CRData.getChar (CRData.set packet) = (some idIscConnectOk, rd)

/-- What a packet can do to a connection. -/
inductive Received (crypto : ICryptoFactory) (c : InternetServiceConnector) (db : SettingsDb)
    (onetimeTokens : OrderedMap Nat SOnetimeToken) (packet : Bytes) (c' : InternetServiceConnector) :
    Prop where
  | ignored (h : c' = c)
  | attempted (hstate : c.state = .auth) (hflags : SameFlags c c')
      (hpc : ∃ errmsg hmacKey clientChallenge, c'.pc = .replying errmsg hmacKey clientChallenge)
      (hstate' : c'.state = .auth)
  | accepted (hstate : c.state = .auth) (hflags : SameFlags c c')
      (hpc : ∃ errmsg hmacKey clientChallenge, c'.pc = .replying errmsg hmacKey clientChallenge)
      (hstate' : c'.state = .capa)
      (hwith : AuthenticatesWith crypto c db onetimeTokens packet c'.clientname)
  | capa (hstate : c.state = .capa) (pipe : IPipe)
      (h : c' = { c with commPipe := pipe, pc := .registering })
  | pong (hstate : c.state = .authed) (h : c' = { c with pinging := false, pc := .ponged })
  | connected (hstate : c.state = .connecting) (hok : ConnectOk packet)
      (h : c' = { c with state := .used, pc := .answered })

theorem receivePacket_spec {packet : Bytes} :
    Received crypto c db onetimeTokens packet
      (c.receivePacket crypto db env onetimeTokens packet).1 := by
  rw [receivePacket]
  cases hread : CRData.getChar (CRData.set packet) with
  | mk first rd =>
    cases first with
    | none => exact .ignored rfl
    | some id =>
      cases hstate : c.state with
      | auth =>
        cases hkind : AuthId.ofChar id with
        | none =>
          simp only [hkind]
          exact .ignored rfl
        | some authId =>
          simp only [hkind]
          have hattempt := @authenticate_spec crypto c db env onetimeTokens _
            (@readAuthMessage_tokenId authId rd)
          cases hattempt.state with
          | inl hsame =>
            exact .attempted hstate hattempt.flags hattempt.pc (hsame.trans hstate)
          | inr hcapa =>
            obtain ⟨hcapa, key, hne, hproves, hfor⟩ := hcapa
            refine .accepted hstate hattempt.flags hattempt.pc hcapa ?_
            refine ⟨id, rd, authId, key, hread, hkind, ?_, hne, hproves, hfor⟩
            obtain ⟨name, hname⟩ := readAuthMessage_clientname hproves
            rw [hattempt.name, hname]
            rfl
      | capa =>
        simp only
        split
        · split
          · exact .ignored rfl
          · exact .capa hstate _ (by rw [← hstate])
        · exact .ignored rfl
      | authed =>
        simp only
        split
        · exact .pong hstate (by rw [← hstate])
        · exact .ignored rfl
      | connecting =>
        simp only
        split
        · rename_i hid
          exact .connected hstate ⟨rd, hid ▸ hread⟩ rfl
        · exact .ignored rfl
      | used => exact .ignored rfl

theorem readAuthMessage_id {id : AuthId} {rd : Bytes} : (readAuthMessage id rd).id = id := by
  rw [readAuthMessage]
  split
  · rfl
  · split
    · rfl
    · rfl

theorem receivePacket_tokens {packet : Bytes} {id : Nat} {token : SOnetimeToken}
    (h : (c.receivePacket crypto db env onetimeTokens packet).2.find? id = some token) :
    onetimeTokens.find? id = some token ∧ .presented id ∉ nextPacket.presents c packet := by
  rw [receivePacket] at h
  rw [nextPacket.presents]
  cases hread : CRData.getChar (CRData.set packet) with
  | mk first rd =>
    rw [hread] at h
    cases first with
    | none => exact ⟨h, List.not_mem_nil⟩
    | some ch =>
      cases hstate : c.state with
      | auth =>
        cases hkind : AuthId.ofChar ch with
        | none =>
          simp only [hstate, hkind] at h
          refine ⟨h, ?_⟩
          simp only [hkind, if_true]
          exact List.not_mem_nil
        | some authId =>
          simp only [hstate, hkind] at h
          have hattempt := @authenticate_spec crypto c db env onetimeTokens _
            (@readAuthMessage_tokenId authId rd)
          obtain ⟨hfind, hother⟩ := hattempt.tokens id token h
          refine ⟨hfind, ?_⟩
          simp only [hkind, if_true]
          split
          · rename_i htoken
            have hne := hother (by rw [readAuthMessage_id]; exact htoken)
            intro hmem
            rw [Option.mem_toList, Option.map_eq_some_iff] at hmem
            obtain ⟨presented, hpresented, hsame⟩ := hmem
            cases hsame
            exact hne hpresented
          · exact List.not_mem_nil
      | capa =>
        simp only [hstate] at h
        split at h
        · split at h
          · exact ⟨h, List.not_mem_nil⟩
          · exact ⟨h, List.not_mem_nil⟩
        · exact ⟨h, List.not_mem_nil⟩
      | authed =>
        simp only [hstate] at h
        split at h
        · exact ⟨h, List.not_mem_nil⟩
        · exact ⟨h, List.not_mem_nil⟩
      | connecting =>
        simp only [hstate] at h
        split at h
        · exact ⟨h, List.not_mem_nil⟩
        · exact ⟨h, List.not_mem_nil⟩
      | used =>
        simp only [hstate] at h
        exact ⟨h, List.not_mem_nil⟩

end InternetServiceConnector

end UrBackup
