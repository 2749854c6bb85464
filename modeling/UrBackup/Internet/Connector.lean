import UrBackup.Lib.OrderedMap
import UrBackup.Net.TcpStack

/-! A connection of a client over the internet: the messages that it sends, the keys it may
know, and the work of the server thread that serves it. -/
namespace UrBackup

open ByteOrder

/-- A `std::string`. -/
abbrev Bytes := List UInt8

/-- The order of bytes, for maps from strings. -/
instance linearOrderUInt8 : LinearOrder UInt8 where
  le_refl := UInt8.le_refl
  le_trans _ _ _ := UInt8.le_trans
  le_antisymm _ _ := UInt8.le_antisymm
  le_total := UInt8.le_total
  toDecidableLE := inferInstance
  toDecidableEq := inferInstance
  toDecidableLT := inferInstance
  lt_iff_le_not_ge a b := by
    rw [UInt8.lt_iff_toNat_lt, UInt8.le_iff_toNat_le, UInt8.le_iff_toNat_le]
    omega
  toOrd := ⟨fun a b => compareOfLessAndEq a b⟩

/-! A reader is the bytes that it has not read yet. -/
namespace CRData

def set (c : Bytes) : Bytes := c.take (100 * 1024 * 1024)

def getChar : Bytes → Option UInt8 × Bytes
  | [] => (none, [])
  | ch :: rd => (some ch, rd)

def getUInt (rd : Bytes) : Option Nat × Bytes :=
  if rd.length < 4 then (none, rd) else (some (ofLittleEndian (rd.take 4)), rd.drop 4)

def getStr (rd : Bytes) : Option Bytes × Bytes :=
  match getUInt rd with
  | (none, rd) => (none, rd)
  | (some strlen, rd) =>
    if 10 * 1024 * 1024 < strlen ∨ rd.length < strlen then (none, rd)
    else (some (rd.take strlen), rd.drop strlen)

end CRData

/-- The messages of a client that ask for authentication. -/
inductive AuthId where
  | auth
  | authToken
  | auth2
  | authToken2
  deriving DecidableEq, Repr

namespace AuthId

def ofChar (id : UInt8) : Option AuthId :=
  if id = 0 then some .auth
  else if id = 7 then some .authToken
  else if id = 8 then some .auth2
  else if id = 9 then some .authToken2
  else none

def isToken : AuthId → Bool
  | .authToken | .authToken2 => true
  | .auth | .auth2 => false

end AuthId

def idIscPong : UInt8 := 3

def idIscConnectOk : UInt8 := 5

def idIscCapa : UInt8 := 6

/-- The fields of a message, as far as they could be read. -/
structure AuthMessage where
  id : AuthId
  clientname : Option Bytes
  hmac : Option Bytes
  tokenId : Option Nat
  ecdhPubkey : Option Bytes
  clientChallenge : Option Bytes
  clientIterations : Option Nat

def readAuthMessage (id : AuthId) (rd : Bytes) : AuthMessage :=
  match CRData.getStr rd with
  | (none, _) => ⟨id, none, none, none, none, none, none⟩
  | (some clientname, rd) =>
    match CRData.getStr rd with
    | (none, _) => ⟨id, some clientname, none, none, none, none, none⟩
    | (some hmac, rd) =>
      let (tokenId, rd) := if id.isToken then CRData.getUInt rd else (none, rd)
      let (ecdhPubkey, rd) := if id = .auth2 then CRData.getStr rd else (none, rd)
      let (clientChallenge, rd) := CRData.getStr rd
      let clientIterations := if id.isToken then none else (CRData.getUInt rd).1
      ⟨id, some clientname, some hmac, tokenId, ecdhPubkey, clientChallenge, clientIterations⟩

/-- Why an authentication fails. -/
inductive AuthError where
  | tokenNotFound
  | wrongToken
  | missingTokenId
  | missingPubkey
  | clientChallenge
  | wrongKey
  | databaseTimeout
  | unknownClient (clientname : Bytes)
  | unknownClientHidden
  | missingFields
  deriving DecidableEq, Repr

/-- No `<`, `>` or `&`. -/
def checkhtml (str : Bytes) : Bool := str.all fun ch => ch ≠ 60 ∧ ch ≠ 62 ∧ ch ≠ 38

/-- A row of `settings_db.settings`. -/
structure Setting where
  key : String
  clientid : Int
  value : Bytes
  deriving DecidableEq, Repr

structure SettingsDb where
  /-- Id and name. -/
  clients : List (Int × Bytes)
  settings : List Setting
  deriving DecidableEq, Repr

/-- `##restore##` -/
def restorePrefix : Bytes := [35, 35, 114, 101, 115, 116, 111, 114, 101, 35, 35]

namespace SettingsDb

variable (db : SettingsDb)

def authkeyRows (clientname : Bytes) : List Setting :=
  if restorePrefix <+: clientname then
    db.settings.filter fun row => row.key = "restore_authkey" ∧ row.clientid = 0
  else
    match db.clients.find? fun client => client.2 = clientname with
    | none => []
    | some client =>
      db.settings.filter fun row => row.key = "internet_authkey" ∧ row.clientid = client.1

def getAuthkeyFromDB (timesOut : Bool) (clientname : Bytes) : Bytes × Bool :=
  match if timesOut then [] else db.authkeyRows clientname with
  | row :: _ => (row.value, false)
  | [] => ([], timesOut)

def hasClient (timesOut : Bool) (clientname : Bytes) : Bool × Bool :=
  if timesOut then (false, true) else (db.clients.any fun client => client.2 = clientname, false)

end SettingsDb

structure SOnetimeToken where
  token : Bytes
  created : Int
  clientname : Bytes
  deriving DecidableEq, Repr

/-- `it` finds an entry and erases it. -/
def getOnetimeToken (onetimeTokens : OrderedMap Nat SOnetimeToken) (id : Nat) :
    Option SOnetimeToken × OrderedMap Nat SOnetimeToken :=
  match onetimeTokens.find? id with
  | some token => (some token, onetimeTokens.erase id)
  | none => (none, onetimeTokens)

/-- Passwords and keys. An exchange gives a key for the public key of the other side. -/
structure ICryptoFactory where
  generateBinaryPasswordHash : (password salt : Bytes) → (iterations : Nat) → Bytes
  getSharedKey : (exchange : Nat) → (pubkey : Bytes) → Bytes

def pbkdf2Iterations : Nat := 20000

inductive IPipe where
  | cs
  | internetServicePipe (version : Nat) (hmacKey : Bytes) (backend : IPipe)
  | compressedPipe (version : Nat) (level : Int) (real : IPipe)
  deriving DecidableEq, Repr

inductive InternetServiceState where
  | auth
  | authed
  | capa
  | connecting
  | used
  deriving DecidableEq, Repr

/-- What the server sends. -/
inductive ServerMessage where
  | challenge (challenge : Bytes) (compressionLevel : Int) (exchange : Nat)
  | authFailed (errmsg : AuthError)
  /-- The token is encrypted on its way. -/
  | authOk (hmac newToken : Bytes)
  | nothing
  | connect (service : UInt8)
  | ping
  deriving DecidableEq, Repr

/-- Where the thread that serves a connection is. It is `idle` between two calls. -/
inductive WorkerPc where
  | idle
  /-- `Run`: has seen `stop_connecting` -/
  | stopping
  /-- `Run`: goes on -/
  | running
  /-- `Run`: has seen `do_connect` -/
  | connecting
  /-- `Run`: looks at the time of the last ping -/
  | pinging
  /-- `Run`: the ping was not answered in time -/
  | pingTimeout
  /-- `Run` has returned false -/
  | finished
  /-- `ReceivePackets`: nothing was read -/
  | lost
  /-- `ReceivePackets`: in front of the next packet -/
  | packets
  /-- `ReceivePackets`: in front of the answer to an authentication -/
  | replying (errmsg : Option AuthError) (hmacKey clientChallenge : Bytes)
  /-- `ReceivePackets`: in front of the lock for the list of connections -/
  | registering
  /-- `ReceivePackets`: behind it -/
  | registered
  /-- `ReceivePackets`: a ping was answered -/
  | ponged
  /-- `ReceivePackets`: the peer is connected, in front of the first lock -/
  | answered
  /-- `ReceivePackets`: in front of the second lock -/
  | confirming
  | destroyed
  deriving DecidableEq, Repr

structure InternetServiceConnector where
  pc : WorkerPc
  state : InternetServiceState
  tcpstack : CTCPStack
  commPipe : IPipe
  isPipe : Option IPipe
  connVersion : Nat
  compressionLevel : Int
  clientname : Bytes
  challenge : Bytes
  authkey : Bytes
  ecdhKeyExchange : Nat
  endpointName : Bytes
  targetService : UInt8
  lastpingtime : Int
  clientPingInterval : Int
  pinging : Bool
  hasTimeout : Bool
  connectStart : Bool
  doConnect : Bool
  stopConnecting : Bool
  isConnected : Bool
  freeConnection : Bool
  sent : List ServerMessage

def pingInterval : Int := 5 * 60 * 1000

def pingTimeout : Int := 30000

def offlineTimeout : Int := pingInterval + 10000

def establishTimeout : Int := 60000

namespace InternetServiceConnector

/-- `Init` -/
def init (challenge endpointName : Bytes) (exchange : Nat) (compressionLevel now : Int) :
    InternetServiceConnector where
  pc := .idle
  state := .auth
  tcpstack := ⟨[], true, 32768⟩
  commPipe := .cs
  isPipe := none
  connVersion := 2
  compressionLevel := compressionLevel
  clientname := []
  challenge := challenge
  authkey := []
  ecdhKeyExchange := exchange
  endpointName := endpointName
  targetService := 0
  lastpingtime := now
  clientPingInterval := pingInterval
  pinging := false
  hasTimeout := false
  connectStart := false
  doConnect := false
  stopConnecting := false
  isConnected := false
  freeConnection := false
  sent := [.challenge challenge compressionLevel exchange]

def send (c : InternetServiceConnector) (msg : ServerMessage) : InternetServiceConnector :=
  { c with sent := c.sent ++ [msg] }

/-- The key for a message, from the database or from a token. A token is used up, whoever
presents it. The last two parts of the result are the error, and whether the database took too
long. -/
def lookupAuthkey (c : InternetServiceConnector) (db : SettingsDb) (timesOut : Bool)
    (onetimeTokens : OrderedMap Nat SOnetimeToken) (msg : AuthMessage) :
    InternetServiceConnector × OrderedMap Nat SOnetimeToken × Option AuthError × Bool :=
  if msg.id.isToken then
    match msg.tokenId with
    | none => (c, onetimeTokens, some .missingTokenId, false)
    | some tokenId =>
      match getOnetimeToken onetimeTokens tokenId with
      | (none, onetimeTokens) =>
        ({ c with authkey := [] }, onetimeTokens, some .tokenNotFound, false)
      | (some token, onetimeTokens) =>
        ({ c with authkey := token.token }, onetimeTokens,
          if token.token = [] then some .tokenNotFound
          else if token.clientname ≠ c.clientname then some .wrongToken else none, false)
  else
    let (authkey, dbTimeout) := db.getAuthkeyFromDB timesOut c.clientname
    let restores := restorePrefix <+: c.clientname ∧ timesOut = false ∧ db.authkeyRows c.clientname ≠ []
    ({ c with
        authkey := authkey
        clientPingInterval := if restores then 30 * 1000 else c.clientPingInterval },
      onetimeTokens, none, dbTimeout)

/-- The checks of the other fields. A later error takes the place of an earlier one. -/
def fieldError (msg : AuthMessage) (errmsg : Option AuthError) : Option AuthError :=
  if (msg.clientChallenge.getD []).length < 32 then some .clientChallenge
  else if msg.id = .auth2 ∧ msg.ecdhPubkey.getD [] = [] then some .missingPubkey
  else errmsg

def salt (crypto : ICryptoFactory) (c : InternetServiceConnector) (msg : AuthMessage) : Bytes :=
  c.challenge ++ msg.clientChallenge.getD [] ++
    if msg.id = .auth2 then crypto.getSharedKey c.ecdhKeyExchange (msg.ecdhPubkey.getD []) else []

def iterations (msg : AuthMessage) : Nat :=
  let iterations := if msg.id.isToken then 1 else pbkdf2Iterations
  max iterations (msg.clientIterations.getD iterations)

def acceptAuth (c : InternetServiceConnector) (msg : AuthMessage) (hmacKey : Bytes) :
    InternetServiceConnector :=
  let version := if msg.id = .auth2 ∨ msg.id = .authToken2 then 2 else 1
  { c with
    state := .capa
    connVersion := version
    isPipe := some (.internetServicePipe version hmacKey c.commPipe)
    commPipe := .internetServicePipe version hmacKey c.commPipe }

def clientError (db : SettingsDb) (timesOut dbTimeout : Bool) (clientname : Bytes) :
    Option AuthError :=
  if dbTimeout then some .databaseTimeout
  else
    match db.hasClient timesOut clientname with
    | (true, _) => none
    | (false, true) => some .databaseTimeout
    | (false, false) =>
      if checkhtml clientname then some (.unknownClient clientname) else some .unknownClientHidden

end InternetServiceConnector

/-- What the environment answers to a step of the thread. -/
structure WorkerEnv where
  now : Int
  /-- Whether the two queries of an authentication take too long. -/
  keyTimesOut : Bool
  clientTimesOut : Bool
  /-- `generateRandomBinaryKey` -/
  newToken : Bytes

namespace InternetServiceConnector

def authenticate (crypto : ICryptoFactory) (c : InternetServiceConnector) (db : SettingsDb)
    (env : WorkerEnv) (onetimeTokens : OrderedMap Nat SOnetimeToken) (msg : AuthMessage) :
    InternetServiceConnector × OrderedMap Nat SOnetimeToken :=
  let c := { c with clientname := msg.clientname.getD c.clientname }
  match msg.hmac with
  | none => ({ c with pc := .replying (some .missingFields) [] [] }, onetimeTokens)
  | some hmac =>
    let (c, onetimeTokens, errmsg, dbTimeout) :=
      c.lookupAuthkey db env.keyTimesOut onetimeTokens msg
    let clientChallenge := msg.clientChallenge.getD []
    match fieldError msg errmsg with
    | some errmsg => ({ c with pc := .replying (some errmsg) [] clientChallenge }, onetimeTokens)
    | none =>
      if c.authkey ≠ [] then
        let hmacKey :=
          crypto.generateBinaryPasswordHash c.authkey (salt crypto c msg) (iterations msg)
        if crypto.generateBinaryPasswordHash hmacKey c.challenge 1 = hmac then
          ({ c.acceptAuth msg hmacKey with pc := .replying none hmacKey clientChallenge },
            onetimeTokens)
        else ({ c with pc := .replying (some .wrongKey) hmacKey clientChallenge }, onetimeTokens)
      else
        ({ c with
            pc := .replying (clientError db env.clientTimesOut dbTimeout c.clientname) []
              clientChallenge },
          onetimeTokens)

def capaPipe (c : InternetServiceConnector) (capa : Nat) : IPipe :=
  let encrypted := if capa.testBit 0 then c.isPipe.getD .cs else .cs
  if capa.testBit 1 then .compressedPipe c.connVersion c.compressionLevel encrypted else encrypted

def receivePacket (crypto : ICryptoFactory) (c : InternetServiceConnector) (db : SettingsDb)
    (env : WorkerEnv) (onetimeTokens : OrderedMap Nat SOnetimeToken) (packet : Bytes) :
    InternetServiceConnector × OrderedMap Nat SOnetimeToken :=
  match CRData.getChar (CRData.set packet) with
  | (none, _) => (c, onetimeTokens)
  | (some id, rd) =>
    match c.state with
    | .auth =>
      match AuthId.ofChar id with
      | none => (c, onetimeTokens)
      | some authId => c.authenticate crypto db env onetimeTokens (readAuthMessage authId rd)
    | .capa =>
      if id = idIscCapa then
        match CRData.getUInt rd with
        | (none, _) => (c, onetimeTokens)
        | (some capa, _) =>
          ({ c with commPipe := c.capaPipe capa, pc := .registering }, onetimeTokens)
      else (c, onetimeTokens)
    | .authed =>
      if id = idIscPong then ({ c with pinging := false, pc := .ponged }, onetimeTokens)
      else (c, onetimeTokens)
    | .connecting =>
      if id = idIscConnectOk then ({ c with state := .used, pc := .answered }, onetimeTokens)
      else (c, onetimeTokens)
    | .used => (c, onetimeTokens)

end InternetServiceConnector

end UrBackup
