import UrBackup.Internet.Authentication

/-! A connection is handed out once, and only when its peer has answered. -/
namespace UrBackup

open InternetService InternetServiceConnector

variable {crypto : ICryptoFactory} {md5 : List UInt8 → Vector UInt8 16} {db : SettingsDb}
  {env : WorkerEnv} {e : InternetServiceEvent} {es : List InternetServiceEvent} {i : Nat}
  {s s' : InternetService} {c c' : InternetServiceConnector}

/-- The next packet of a connection answers the request to connect. -/
def Confirms (md5 : List UInt8 → Vector UInt8 16) (i : Nat) (s : InternetService)
    (e : InternetServiceEvent) : Prop :=
  (∃ env, e = .work i env) ∧ ∃ c packet tcpstack, s.connectors i = some c ∧ c.pc = .packets ∧
    c.state = .connecting ∧ c.tcpstack.getPacket md5 = some (some packet, tcpstack) ∧ ConnectOk packet

/-- The answer has arrived, whether the caller can see it yet or not. -/
def Answered (c : InternetServiceConnector) : Prop :=
  c.isConnected = true ∨ c.pc = .answered ∨ c.pc = .confirming

theorem work_confirms {shared shared' : SharedConnections} (hanswered : Answered c')
    (h : c.work crypto md5 i db env shared = some (c', shared')) :
    Answered c ∨ c.pc = .packets ∧ c.state = .connecting ∧ ∃ packet tcpstack,
      c.tcpstack.getPacket md5 = some (some packet, tcpstack) ∧ ConnectOk packet := by
  have hkept : c'.isConnected = c.isConnected → c'.pc ≠ .answered → c'.pc ≠ .confirming →
      Answered c := by
    intro hconnected hnot hnot'
    cases hanswered with
    | inl h => exact Or.inl (hconnected.symm.trans h)
    | inr h => exact absurd h (not_or.mpr ⟨hnot, hnot'⟩)
  rw [work] at h
  cases hpc : c.pc with
  | idle => simp only [hpc] at h; cases h
  | finished => simp only [hpc] at h; cases h
  | destroyed => simp only [hpc] at h; cases h
  | answered => exact Or.inl (Or.inr (Or.inl hpc))
  | confirming => exact Or.inl (Or.inr (Or.inr hpc))
  | stopping => simp only [hpc] at h; cases h; exact Or.inl (hkept rfl (by simp) (by simp))
  | connecting => simp only [hpc] at h; cases h; exact Or.inl (hkept rfl (by simp) (by simp))
  | registered => simp only [hpc] at h; cases h; exact Or.inl (hkept rfl (by simp) (by simp))
  | registering => simp only [hpc] at h; cases h; exact Or.inl (hkept rfl (by simp) (by simp))
  | ponged => simp only [hpc] at h; cases h; exact Or.inl (hkept rfl (by simp) (by simp))
  | running =>
    simp only [hpc] at h
    cases h
    have hrun : c.runState.isConnected = c.isConnected ∧ c.runState.pc ≠ .answered ∧
        c.runState.pc ≠ .confirming := by
      rw [runState]
      split_ifs <;> exact ⟨rfl, (by simp), (by simp)⟩
    exact Or.inl (hkept hrun.1 hrun.2.1 hrun.2.2)
  | pinging =>
    simp only [hpc] at h
    cases h
    have hrun : (c.runPing env.now).isConnected = c.isConnected ∧
        (c.runPing env.now).pc ≠ .answered ∧ (c.runPing env.now).pc ≠ .confirming := by
      rw [runPing]
      split_ifs <;> exact ⟨rfl, (by simp), (by simp)⟩
    exact Or.inl (hkept hrun.1 hrun.2.1 hrun.2.2)
  | pingTimeout =>
    simp only [hpc, timeOut] at h
    split at h
    · cases h
      exact Or.inl (hkept rfl (by simp) (by simp))
    · cases h
      exact Or.inl (hkept rfl (by simp) (by simp))
  | lost =>
    simp only [hpc, timeOut] at h
    split at h
    · cases h
      exact Or.inl (hkept rfl (by simp) (by simp))
    · cases h
      exact Or.inl (hkept rfl (by simp) (by simp))
  | replying errmsg hmacKey clientChallenge =>
    simp only [hpc, reply.eq_def] at h
    split at h
    · cases h
      exact Or.inl (hkept rfl (by simp) (by simp))
    · split at h
      · cases h
        exact Or.inl (hkept rfl (by simp) (by simp))
      · cases h
        exact Or.inl (hkept rfl (by simp) (by simp))
  | packets =>
    simp only [hpc] at h
    cases nextPacket_cases h with
    | inl hnone =>
      obtain ⟨tcpstack, rfl, -⟩ := hnone
      exact Or.inl (hkept rfl (by simp) (by simp))
    | inr hsome =>
      obtain ⟨packet, tcpstack, hget, hreceived, -, -⟩ := hsome
      cases hreceived with
      | ignored heq =>
        subst heq
        exact Or.inl hanswered
      | attempted _ hflags hreply _ =>
        obtain ⟨errmsg, hmacKey, clientChallenge, hreply⟩ := hreply
        refine Or.inl (hkept hflags.isConnected ?_ ?_)
        · rw [hreply]
          simp
        · rw [hreply]
          simp
      | accepted _ hflags hreply _ _ =>
        obtain ⟨errmsg, hmacKey, clientChallenge, hreply⟩ := hreply
        refine Or.inl (hkept hflags.isConnected ?_ ?_)
        · rw [hreply]
          simp
        · rw [hreply]
          simp
      | capa _ pipe heq =>
        subst heq
        exact Or.inl (hkept rfl (by simp) (by simp))
      | pong _ heq =>
        subst heq
        exact Or.inl (hkept rfl (by simp) (by simp))
      | connected hstate hok _ => exact Or.inr ⟨rfl, hstate, packet, tcpstack, hget, hok⟩

theorem step_confirms (h : s.step crypto md5 e = some s') (hc' : s'.connectors i = some c')
    (hanswered : Answered c') :
    (∃ c, s.connectors i = some c ∧ Answered c) ∨ Confirms md5 i s e := by
  cases step_connector h hc' with
  | inl hsame => exact Or.inl ⟨c', hsame, hanswered⟩
  | inr hchange =>
    cases hchange with
    | opened _ hpc hconnected =>
      refine (not_or.mpr ⟨?_, not_or.mpr ⟨?_, ?_⟩⟩ hanswered).elim
      · rw [hconnected]
        nofun
      · rw [hpc]
        nofun
      · rw [hpc]
        nofun
    | other c hc _ hconnected hpc =>
      refine Or.inl ⟨c, hc, ?_⟩
      cases hanswered with
      | inl hnow => exact Or.inl (hconnected.symm.trans hnow)
      | inr hnow =>
        cases hpc with
        | inl hpc => exact Or.inr (hpc ▸ hnow)
        | inr hnot => exact absurd hnow (not_or.mpr hnot)
    | worked c env shared he hc hwork =>
      cases work_confirms hanswered hwork with
      | inl hbefore => exact Or.inl ⟨c, hc, hbefore⟩
      | inr hnow =>
        obtain ⟨hpc, hstate, packet, tcpstack, hget, hok⟩ := hnow
        exact Or.inr ⟨⟨env, he⟩, c, packet, tcpstack, hc, hpc, hstate, hget, hok⟩

theorem run_answered (h : run crypto md5 db es = some s) (hc : s.connectors i = some c)
    (hanswered : Answered c) :
    TransitionSystem.Happened (fun s e => step s crypto md5 e) (initial db) es (Confirms md5 i) := by
  revert i c
  refine TransitionSystem.run_history (I := fun es s => ∀ {i : Nat} {c : InternetServiceConnector},
    s.connectors i = some c → Answered c →
    TransitionSystem.Happened (fun s e => step s crypto md5 e) (initial db) es (Confirms md5 i)) ?_ ?_ h
  · intro i c hc
    cases hc
  · intro es s e s' hrun hbefore hstep i c' hc' hanswered
    cases step_confirms hstep hc' hanswered with
    | inl hold =>
      obtain ⟨c, hc, hanswered⟩ := hold
      exact (hbefore hc hanswered).append [e]
    | inr hnow => exact .last hrun hnow

/-- A call has returned a connection to its caller. -/
def Returned (s : InternetService) (n i : Nat) : Prop :=
  ∃ call pipe, s.calls n = some call ∧ call.pc = .returned (some (i, pipe))

/-- A connection stands in one list and once, is returned once, and only when it was authenticated
as the client that was asked for and its peer has answered; one that has timed out or is destroyed
stands in no list. -/
structure HandedOutOnce (crypto : ICryptoFactory) (md5 : List UInt8 → Vector UInt8 16)
    (db : SettingsDb) (es : List InternetServiceEvent) (s : InternetService) : Prop where
  once : ∀ clientname, (s.shared.spareConnections clientname).Nodup
  oneList : ∀ i clientname clientname', i ∈ s.shared.spareConnections clientname →
    i ∈ s.shared.spareConnections clientname' → clientname = clientname'
  oneCall : ∀ i n n', Returned s n i → Returned s n' i → n = n'
  usable : ∀ i n call pipe, s.calls n = some call → call.pc = .returned (some (i, pipe)) →
    TransitionSystem.Happened (fun s e => step s crypto md5 e) (initial db) es
      (Authenticates crypto md5 i call.clientname) ∧
    TransitionSystem.Happened (fun s e => step s crypto md5 e) (initial db) es (Confirms md5 i)
  gone : ∀ i c, s.connectors i = some c → c.hasTimeout = true ∨ c.pc = .destroyed →
    ∀ clientname, i ∉ s.shared.spareConnections clientname

/-- It is so after every run of the threads and the callers. -/
theorem run_handedOutOnce (h : run crypto md5 db es = some s) :
    HandedOutOnce crypto md5 db es s := by
  have hok := run_ok h
  constructor
  · exact hok.nodup
  · intro i clientname clientname' hmem hmem'
    obtain ⟨c, hc, hlisted⟩ := hok.listed clientname i hmem
    obtain ⟨c', hc', hlisted'⟩ := hok.listed clientname' i hmem'
    rw [hc] at hc'
    cases hc'
    exact hlisted.name.symm.trans hlisted'.name
  · rintro i n n' ⟨call, pipe, hcall, hpc⟩ ⟨call', pipe', hcall', hpc'⟩
    apply hok.single n n' call call' i hcall hcall'
    · rw [hpc]
      rfl
    · rw [hpc']
      rfl
  · intro i n call pipe hcall hpc
    obtain ⟨c, hc, -, hstate, hname⟩ := hok.held n call i hcall (by rw [hpc]; rfl)
    obtain ⟨c', hc', hconnected⟩ := hok.sees n call i hcall (by rw [hpc]; rfl)
    rw [← hname]
    exact ⟨(run_authenticated h).past i c hc hstate, run_answered h hc' (Or.inl hconnected)⟩
  · intro i c hc hgone clientname hmem
    obtain ⟨d, hd, hlisted⟩ := hok.listed clientname i hmem
    rw [hc] at hd
    cases hd
    cases hgone with
    | inl htimeout => exact absurd (hlisted.alive.symm.trans htimeout) Bool.false_ne_true
    | inr hdestroyed => exact hlisted.there hdestroyed

section Example

def handOutRun : List InternetServiceEvent :=
  let work : InternetServiceEvent := .work 0 ⟨0, false, false, [9]⟩
  authRun ++ [work, work, .getConnection 0 [97] 0 100 0, .call 0 0, .call 0 0, .run 0, work, work,
    .receive 0 (onWire [5]), work, work, work, work, .call 0 0, .call 0 0, .call 0 0]

theorem run_handedOutOnce_handOutRun : ∃ s, run plainCrypto noChecksum oneClient handOutRun = some s ∧
    Returned s 0 0 ∧ HandedOutOnce plainCrypto noChecksum oneClient handOutRun s := by
  have hrun : (run plainCrypto noChecksum oneClient handOutRun).any (fun s => decide
      ((s.calls 0).map (fun call => call.pc) = some (.returned (some (0, .internetServicePipe 1 [7] .cs)))))
        = true := by decide +kernel
  obtain ⟨s, hs, hreturned⟩ := (Option.any_eq_true _ _).mp hrun
  obtain ⟨call, hcall, hpc⟩ := Option.map_eq_some_iff.mp (of_decide_eq_true hreturned)
  exact ⟨s, hs, ⟨call, _, hcall, hpc⟩, run_handedOutOnce hs⟩

end Example

end UrBackup
