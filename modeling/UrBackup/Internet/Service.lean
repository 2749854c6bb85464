import UrBackup.Internet.Connector
import UrBackup.Lib.Run
import Mathlib.Logic.Function.Basic

/-! The connections of all clients, and the threads that work on them. What is done under a lock is
one step, and so is everything else that a thread does between two accesses to what others see. -/
namespace UrBackup

structure SClientData where
  spareConnections : List Nat
  lastSeen : Int
  endpointName : Bytes
  deriving DecidableEq, Repr

/-- What has happened to tokens, in order. -/
inductive TokenEvent where
  | generated (id : Nat) (token : SOnetimeToken)
  | presented (id : Nat)
  deriving DecidableEq, Repr

/-- The static members. The log of the tokens is not part of the program. -/
structure SharedConnections where
  clientData : OrderedMap Bytes SClientData
  onetimeTokens : OrderedMap Nat SOnetimeToken
  onetimeTokenId : Nat
  lastTokenRemove : Int
  tokenLog : List TokenEvent

namespace SharedConnections

variable (s : SharedConnections)

/-- `client_data[clientname]` -/
def clientDataAt (clientname : Bytes) : SClientData :=
  (s.clientData.find? clientname).getD ⟨[], 0, []⟩

def setClientData (clientname : Bytes) (data : SClientData) : SharedConnections :=
  { s with clientData := s.clientData.insert clientname data }

def spareConnections (clientname : Bytes) : List Nat := (s.clientDataAt clientname).spareConnections

def seen (clientname : Bytes) (now : Int) : SharedConnections :=
  s.setClientData clientname { s.clientDataAt clientname with lastSeen := now }

def register (i : Nat) (clientname endpointName : Bytes) (now : Int) : SharedConnections :=
  s.setClientData clientname
    { spareConnections := s.spareConnections clientname ++ [i]
      lastSeen := now
      endpointName := endpointName }

/-- The part of `cleanup_pipes` that looks at the lists. -/
def removeConnection (i : Nat) (clientname : Bytes) : SharedConnections :=
  if s.clientData.find? clientname = none then s
  else
    s.setClientData clientname
      { s.clientDataAt clientname with
        spareConnections := (s.spareConnections clientname).erase i }

/-- The id is a 32 bit number. A token that is already there under the id stays. -/
def generateOnetimeToken (clientname newToken : Bytes) (now : Int) : Bytes × SharedConnections :=
  let token : SOnetimeToken := ⟨newToken, now, clientname⟩
  (ByteOrder.littleEndian 4 s.onetimeTokenId ++ newToken,
    { s with
      onetimeTokenId := (s.onetimeTokenId + 1) % 2 ^ 32
      onetimeTokens := if (s.onetimeTokens.find? s.onetimeTokenId).isSome then s.onetimeTokens
        else s.onetimeTokens.insert s.onetimeTokenId token
      tokenLog := s.tokenLog ++ [.generated s.onetimeTokenId token] })

def removeOldTokens (now : Int) : SharedConnections :=
  { s with onetimeTokens := s.onetimeTokens.filterValues fun token =>
      decide (¬ 1 * 60 * 60 * 1000 < now - token.created) }

/-- The clients without a connection for a while are deleted; there is no connection left to
stop. -/
def removeOffline (now : Int) : SharedConnections :=
  { s with clientData := s.clientData.filterValues fun data =>
      decide (data.spareConnections ≠ [] ∨ now - data.lastSeen < establishTimeout) }

def getOnlineClients (now : Int) : List (Bytes × Bytes) × SharedConnections :=
  let s := if 30 * 60 * 1000 < now - s.lastTokenRemove
    then { s.removeOldTokens now with lastTokenRemove := now } else s
  ((s.clientData.entries.filter fun entry =>
      entry.2.spareConnections ≠ [] ∧ now - entry.2.lastSeen < offlineTimeout).map fun entry =>
        (entry.1, entry.2.endpointName),
    s.removeOffline now)

end SharedConnections

namespace InternetServiceConnector

/-- `cleanup_pipes`, without the lists -/
def cleanupPipes (c : InternetServiceConnector) : InternetServiceConnector := { c with isPipe := none }

def timeOut (i : Nat) (c : InternetServiceConnector) (s : SharedConnections) (pc : WorkerPc) :
    InternetServiceConnector × SharedConnections :=
  if c.connectStart then ({ c with pc := .idle }, s)
  else ({ c.cleanupPipes with hasTimeout := true, pc := pc }, s.removeConnection i c.clientname)

/-- `Run`, behind the look at `stop_connecting` -/
def runState (c : InternetServiceConnector) : InternetServiceConnector :=
  if c.state = .connecting then { c with pc := .idle }
  else if c.state = .used then { c with pc := if c.freeConnection then .finished else .idle }
  else if c.hasTimeout then { c with pc := .finished }
  else if c.doConnect ∧ c.pinging = false ∧ c.state = .authed then { c with pc := .connecting }
  else { c with pc := .pinging }

/-- `Run`: pings a client that is not used, and looks whether it has answered. -/
def runPing (c : InternetServiceConnector) (now : Int) : InternetServiceConnector :=
  if c.state = .authed ∧ c.clientPingInterval < now - c.lastpingtime ∧ c.pinging = false then
    { c.send .ping with lastpingtime := now, pinging := true, pc := .idle }
  else if c.state = .authed ∧ c.pinging ∧ pingTimeout < now - c.lastpingtime then
    { c with pc := .pingTimeout }
  else { c with pc := .idle }

variable (crypto : ICryptoFactory) (md5 : List UInt8 → Vector UInt8 16)

/-- The next packet, if there is one. Who presents a token is in the log of the tokens. -/
def nextPacket (c : InternetServiceConnector) (db : SettingsDb) (env : WorkerEnv)
    (s : SharedConnections) : Option (InternetServiceConnector × SharedConnections) :=
  (c.tcpstack.getPacket md5).map fun (packet, tcpstack) =>
    match packet with
    | none => ({ c with tcpstack, pc := .idle }, s)
    | some packet =>
      let (c', onetimeTokens) := { c with tcpstack }.receivePacket crypto db env s.onetimeTokens packet
      (c', { s with onetimeTokens, tokenLog := s.tokenLog ++ presents c packet })
where
  /-- The token that a packet presents. -/
  presents (c : InternetServiceConnector) (packet : Bytes) : List TokenEvent :=
    match CRData.getChar (CRData.set packet) with
    | (none, _) => []
    | (some id, rd) =>
      if c.state = .auth then
        match AuthId.ofChar id with
        | none => []
        | some authId =>
          if authId.isToken then
            ((readAuthMessage authId rd).tokenId.map TokenEvent.presented).toList
          else []
      else []

def reply (c : InternetServiceConnector) (env : WorkerEnv) (s : SharedConnections)
    (errmsg : Option AuthError) (hmacKey clientChallenge : Bytes) :
    InternetServiceConnector × SharedConnections :=
  match errmsg with
  | some errmsg => ({ c.send (.authFailed errmsg) with pc := .packets }, s)
  | none =>
    if c.state = .capa then
      let (newToken, s) := s.generateOnetimeToken c.clientname env.newToken env.now
      ({ c.send (.authOk (crypto.generateBinaryPasswordHash hmacKey clientChallenge 1) newToken) with
          pc := .packets }, s)
    else ({ c.send .nothing with pc := .packets }, s)

/-- The next step in a call of `Run` or `ReceivePackets`. -/
def work (i : Nat) (c : InternetServiceConnector) (db : SettingsDb) (env : WorkerEnv)
    (s : SharedConnections) : Option (InternetServiceConnector × SharedConnections) :=
  match c.pc with
  | .idle | .finished | .destroyed => none
  | .stopping => some ({ c.cleanupPipes with pc := .finished }, s)
  | .running => some (c.runState, s)
  | .connecting =>
    some ({ c.send (.connect c.targetService) with state := .connecting, pc := .idle }, s)
  | .pinging => some (c.runPing env.now, s)
  | .pingTimeout => some (c.timeOut i s .finished)
  | .lost => some (c.timeOut i s .idle)
  | .packets => c.nextPacket crypto md5 db env s
  | .replying errmsg hmacKey clientChallenge =>
    some (c.reply crypto env s errmsg hmacKey clientChallenge)
  | .registering =>
    some ({ c with pc := .registered }, s.register i c.clientname c.endpointName env.now)
  | .registered => some ({ c with state := .authed, pc := .packets }, s)
  | .ponged => some ({ c with pc := .packets }, s.seen c.clientname env.now)
  | .answered => some ({ c with pc := .confirming }, s.seen c.clientname env.now)
  | .confirming => some ({ c with isConnected := true, pc := .packets }, s)

/-- A call of `Run` begins. -/
def startRun (c : InternetServiceConnector) : InternetServiceConnector :=
  { c with pc := if c.stopConnecting then .stopping else .running }

/-- A call of `ReceivePackets` begins with a read from the pipe. -/
def startReceive (c : InternetServiceConnector) (ret : Bytes) : InternetServiceConnector :=
  if c.state = .used ∨ c.hasTimeout then c
  else if ret = [] then
    if c.state = .connecting then c else { c with pc := .lost }
  else { c with tcpstack := c.tcpstack.addData ret, pc := .packets }

end InternetServiceConnector

/-- Where a caller of `getConnection` is. It holds a connection from the removal from the list
on. -/
inductive CallerPc where
  | looking
  /-- in front of the condition of the loop -/
  | condition
  | popped (i : Nat)
  /-- `Connect`: waits -/
  | waiting (i : Nat)
  | connected (i : Nat)
  | gotPipe (i : Nat) (pipe : IPipe)
  | returned (result : Option (Nat × IPipe))
  deriving DecidableEq, Repr

structure GetConnection where
  pc : CallerPc
  clientname : Bytes
  service : UInt8
  timeoutms : Int
  starttime : Int
  deriving DecidableEq, Repr

structure InternetService where
  connectors : Nat → Option InternetServiceConnector
  calls : Nat → Option GetConnection
  shared : SharedConnections
  db : SettingsDb

inductive InternetServiceEvent where
  | connect (i : Nat) (challenge endpointName : Bytes) (exchange : Nat) (compressionLevel now : Int)
  | run (i : Nat)
  | receive (i : Nat) (ret : Bytes)
  | work (i : Nat) (env : WorkerEnv)
  | destroy (i : Nat)
  | getConnection (n : Nat) (clientname : Bytes) (service : UInt8) (timeoutms now : Int)
  | call (n : Nat) (now : Int)
  | getOnlineClients (now : Int)
  | setDb (db : SettingsDb)

namespace InternetService

def initial (db : SettingsDb) : InternetService where
  connectors := fun _ => none
  calls := fun _ => none
  shared := ⟨OrderedMap.empty, OrderedMap.empty, 0, 0, []⟩
  db := db

variable (s : InternetService)

def setConnector (i : Nat) (c : InternetServiceConnector) : InternetService :=
  { s with connectors := Function.update s.connectors i (some c) }

def setCall (n : Nat) (call : GetConnection) : InternetService :=
  { s with calls := Function.update s.calls n (some call) }

/-- Under the lock: the last connection in the list is taken out if it has not timed out. -/
def takeConnection (n : Nat) (call : GetConnection) : Option InternetService :=
  match s.shared.clientData.find? call.clientname with
  | none => some (s.setCall n { call with pc := .returned none })
  | some data =>
    match data.spareConnections.getLast? with
    | none => some (s.setCall n { call with pc := .condition })
    | some i =>
      (s.connectors i).map fun c =>
        if c.hasTimeout then s.setCall n { call with pc := .condition }
        else
          ({ s with
              shared := s.shared.setClientData call.clientname
                { data with spareConnections := data.spareConnections.dropLast }
            }.setConnector i { c with connectStart := true }).setCall n { call with pc := .popped i }

/-- A step of a caller. One that waits goes on when it is notified or its time is over, and looks
whether the connection is there. -/
def callStep (n : Nat) (call : GetConnection) (now : Int) : Option InternetService :=
  match call.pc with
  | .looking => s.takeConnection n call
  | .condition =>
    some (s.setCall n { call with
      pc := if call.timeoutms = -1 ∨ now - call.starttime < call.timeoutms then .looking
        else .returned none })
  | .popped i =>
    (s.connectors i).map fun c =>
      (s.setConnector i { c with targetService := call.service, doConnect := true }).setCall n
        { call with pc := .waiting i }
  | .waiting i =>
    (s.connectors i).map fun c =>
      if c.isConnected then s.setCall n { call with pc := .connected i }
      else (s.setConnector i { c with stopConnecting := true }).setCall n
        { call with pc := .condition }
  | .connected i =>
    (s.connectors i).map fun c => s.setCall n { call with pc := .gotPipe i c.commPipe }
  | .gotPipe i pipe =>
    (s.connectors i).map fun c =>
      (s.setConnector i { c with freeConnection := true }).setCall n
        { call with pc := .returned (some (i, pipe)) }
  | .returned _ => none

/-- The destructor. A caller that still holds the connection would read what it has left behind. -/
def destroy (i : Nat) (c : InternetServiceConnector) : InternetService :=
  if c.connectStart then s.setConnector i { c with pc := .destroyed }
  else
    { s with shared := s.shared.removeConnection i c.clientname }.setConnector i
      { c.cleanupPipes with pc := .destroyed }

variable (crypto : ICryptoFactory) (md5 : List UInt8 → Vector UInt8 16)

def step : InternetServiceEvent → Option InternetService
  | .connect i challenge endpointName exchange compressionLevel now =>
    if s.connectors i = none then
      some (s.setConnector i (.init challenge endpointName exchange compressionLevel now))
    else none
  | .run i =>
    (s.connectors i).bind fun c => if c.pc = .idle then some (s.setConnector i c.startRun) else none
  | .receive i ret =>
    (s.connectors i).bind fun c =>
      if c.pc = .idle then some (s.setConnector i (c.startReceive ret)) else none
  | .work i env =>
    (s.connectors i).bind fun c =>
      (c.work crypto md5 i s.db env s.shared).map fun (c, shared) =>
        { s with shared }.setConnector i c
  | .destroy i =>
    (s.connectors i).bind fun c =>
      if c.pc = .idle ∨ c.pc = .finished then some (s.destroy i c) else none
  | .getConnection n clientname service timeoutms now =>
    if s.calls n = none then some (s.setCall n ⟨.looking, clientname, service, timeoutms, now⟩)
    else none
  | .call n now => (s.calls n).bind fun call => s.callStep n call now
  | .getOnlineClients now => some { s with shared := (s.shared.getOnlineClients now).2 }
  | .setDb db => some { s with db }

def run (db : SettingsDb) (es : List InternetServiceEvent) : Option InternetService :=
  TransitionSystem.run (fun s e => step s crypto md5 e) (initial db) es

end InternetService

end UrBackup
