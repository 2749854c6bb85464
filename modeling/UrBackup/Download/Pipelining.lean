import UrBackup.Download.FileClient

/-! Requests and replies stay in step, as long as no end of a script is requested ahead of time: it
would be requested as a file. -/
namespace UrBackup

open SQueueItem

section Queue

variable {asked later : List SQueueItem}

theorem not_chunked_of_full {it : SQueueItem} (h : it.isFull = true) : it.isChunked = false := by
  unfold isFull at h
  rw [Bool.and_eq_true, decide_eq_true_iff, decide_eq_true_iff] at h
  unfold isChunked
  rw [h.2]
  exact Bool.and_false _

/-- Items that were requested stand before those that were not. -/
structure Requested (asked later : List SQueueItem) : Prop where
  full : ∀ it ∈ asked ++ later, it.isFull = true
  asked : ∀ it ∈ asked, it.queued = true
  later : ∀ it ∈ later, it.queued = false

theorem Requested.asked_tail {it : SQueueItem} (h : Requested (it :: asked) later) :
    Requested asked later where
  full it' hit := h.full it' (List.mem_cons_of_mem _ hit)
  asked it' hit := h.asked it' (List.mem_cons_of_mem _ hit)
  later := h.later

theorem Requested.later_tail {it : SQueueItem} (h : Requested [] (it :: later)) :
    Requested [] later where
  full it' hit := h.full it' (List.mem_cons_of_mem _ hit)
  asked := h.asked
  later it' hit := h.later it' (List.mem_cons_of_mem _ hit)

theorem Requested.ask {it : SQueueItem} (h : Requested asked (it :: later)) :
    Requested (asked ++ [{ it with queued := true }]) later where
  full it' hit := by
    rw [List.append_assoc, List.singleton_append, List.mem_append, List.mem_cons] at hit
    rcases hit with hasked | rfl | hlater
    · exact h.full it' (List.mem_append_left _ hasked)
    · exact h.full it (List.mem_append_right _ (List.mem_cons_self ..))
    · exact h.full it' (List.mem_append_right _ (List.mem_cons_of_mem _ hlater))
  asked it' hit := by
    cases List.mem_append.mp hit with
    | inl hold => exact h.asked it' hold
    | inr hnew => rw [List.mem_singleton.mp hnew]
  later it' hit := h.later it' (List.mem_cons_of_mem _ hit)

theorem Requested.append {more : List SQueueItem} (h : Requested asked later)
    (hmore : ∀ it ∈ more, it.isFull = true ∧ it.queued = false) :
    Requested asked (later ++ more) where
  full it hit := by
    rw [← List.append_assoc] at hit
    cases List.mem_append.mp hit with
    | inl hold => exact h.full it hold
    | inr hnew => exact (hmore it hnew).1
  asked := h.asked
  later it hit := by
    cases List.mem_append.mp hit with
    | inl hold => exact h.later it hold
    | inr hnew => exact (hmore it hnew).2

theorem Requested.insert {ni : SQueueItem} (h : Requested asked later)
    (hni : ni.isFull = true ∧ ni.queued = false) : Requested asked (ni :: later) where
  full it hit := by
    rw [List.mem_append, List.mem_cons] at hit
    rcases hit with hit | rfl | hit
    · exact h.full it (List.mem_append_left _ hit)
    · exact hni.1
    · exact h.full it (List.mem_append_right _ hit)
  asked := h.asked
  later it hit := by
    cases List.mem_cons.mp hit with
    | inl hnew => rw [hnew]; exact hni.2
    | inr hold => exact h.later it hold

/-- The first place behind what was requested. Induction on that. -/
theorem earliestPlace_asked (h : Requested asked later) (idx : Nat) (noQueued : Bool) :
    DlQueue.earliestPlace false (asked ++ later) idx none noQueued =
      if later = [] then (if asked = [] ∧ noQueued then some 0 else none)
      else some (idx + asked.length) := by
  induction asked generalizing idx noQueued with
  | nil =>
    cases later with
    | nil => cases noQueued <;> rfl
    | cons it rest =>
      have hfull := h.full it (List.mem_cons_self ..)
      have hlater := h.later it (List.mem_cons_self ..)
      rw [List.nil_append, DlQueue.earliestPlace, if_pos hfull, hlater]
      rfl
  | cons it asked ih =>
    have hfull := h.full it (List.mem_cons_self ..)
    have hqueued := h.asked it (List.mem_cons_self ..)
    have hlen : idx + (it :: asked).length = idx + 1 + asked.length := by
      rw [List.length_cons]
      omega
    have hne : ¬ (it :: asked = [] ∧ noQueued = true) := fun hnil => List.cons_ne_nil _ _ hnil.1
    rw [List.cons_append, DlQueue.earliestPlace, if_pos hfull, hqueued, Bool.not_true,
      if_neg Bool.false_ne_true, ih h.asked_tail, hlen, if_neg hne]
    split
    · exact if_neg (fun hf => Bool.false_ne_true hf.2)
    · rfl

theorem insertFullQueueEarliest_asked (h : Requested asked later) (ni : SQueueItem) :
    (DlQueue.insertFullQueueEarliest (asked ++ later) ni false).2 = asked ++ ni :: later := by
  unfold DlQueue.insertFullQueueEarliest
  rw [earliestPlace_asked h]
  cases later with
  | nil =>
    cases asked with
    | nil => rfl
    | cons it asked => simp
  | cons it rest =>
    rw [if_neg (List.cons_ne_nil _ _), Nat.zero_add]
    dsimp only [DlQueue.insertAt]
    rw [List.take_left, List.drop_left]

/-- Looking ahead passes what was requested. Induction on that. -/
theorem fullPass_asked (prepare : SQueueItem → PrepareOutcome) (maxPrepare : Nat)
    (h : Requested asked later) (before : List SQueueItem) :
    DlQueue.fullPass prepare maxPrepare before (asked ++ later) =
      DlQueue.fullPass prepare maxPrepare (before ++ asked) later := by
  induction asked generalizing before with
  | nil => rw [List.nil_append, List.append_nil]
  | cons it asked ih =>
    have hqueued := h.asked it (List.mem_cons_self ..)
    have hchunked := not_chunked_of_full (h.full it (List.mem_cons_self ..))
    rw [List.cons_append, DlQueue.fullPass, hchunked, Bool.false_and, Bool.false_and,
      if_neg Bool.false_ne_true, hqueued, Bool.not_true, Bool.and_false,
      if_neg Bool.false_ne_true, ih h.asked_tail, List.append_assoc, List.singleton_append]

theorem getQueuedFileFull_none (prepare : SQueueItem → PrepareOutcome) (h : Requested asked []) :
    DlQueue.getQueuedFileFull prepare asked = (none, asked) := by
  have hpass := fullPass_asked prepare 1 h []
  rw [List.append_nil] at hpass
  unfold DlQueue.getQueuedFileFull
  rw [hpass]
  rfl

theorem getQueuedFileFull_found (prepare : SQueueItem → PrepareOutcome) {it : SQueueItem}
    {rest : List SQueueItem} (h : Requested asked (it :: rest)) :
    DlQueue.getQueuedFileFull prepare (asked ++ it :: rest) =
      (some { it with queued := true }, asked ++ { it with queued := true } :: rest) := by
  have hfull := h.full it (List.mem_append_right _ (List.mem_cons_self ..))
  have hlater := h.later it (List.mem_cons_self ..)
  have hchunked := not_chunked_of_full hfull
  unfold DlQueue.getQueuedFileFull
  rw [fullPass_asked prepare 1 h, List.nil_append, DlQueue.fullPass, hchunked, Bool.false_and,
    Bool.false_and, if_neg Bool.false_ne_true, hfull, hlater]
  rfl

theorem isFull_ofFullArgs (a : QueueArgs) :
    (ofFullArgs a).isFull = true ∧ (ofFullArgs a).queued = false := ⟨rfl, rfl⟩

theorem isFull_scriptEndOf (todl : SQueueItem) :
    (scriptEndOf todl).isFull = true ∧ (scriptEndOf todl).queued = false := ⟨rfl, rfl⟩

/-- The queue behind what was requested is all that a finished transfer changes of it. -/
def Extends (asked : List SQueueItem) (t : ServerDownloadThread) : Prop :=
  ∃ later, t.dlQueue = asked ++ later ∧ Requested asked later

theorem Extends.queueScriptEnd {t : ServerDownloadThread} (h : Extends asked t)
    (todl : SQueueItem) : Extends asked (t.queueScriptEnd todl) := by
  obtain ⟨later, hqueue, hrequested⟩ := h
  refine ⟨_, ?_, hrequested.insert (isFull_scriptEndOf todl)⟩
  change (DlQueue.insertFullQueueEarliest t.dlQueue (scriptEndOf todl) false).2 = _
  rw [hqueue]
  exact insertFullQueueEarliest_asked hrequested _

theorem Extends.append {t t' : ServerDownloadThread} (h : Extends asked t)
    {more : List SQueueItem} (hmore : ∀ it ∈ more, it.isFull = true ∧ it.queued = false)
    (hqueue : t'.dlQueue = t.dlQueue ++ more) : Extends asked t' := by
  obtain ⟨later, hlater, hrequested⟩ := h
  refine ⟨_, ?_, hrequested.append hmore⟩
  rw [hqueue, hlater, List.append_assoc]

theorem Extends.addTarFiles {t : ServerDownloadThread} (h : Extends asked t)
    {files : List (Bool × QueueArgs)} (hfull : (files.any fun file => file.1) = false) :
    Extends asked (t.addTarFiles files) := by
  apply h.append ?_ rfl
  intro it hit
  obtain ⟨file, hfile, rfl⟩ := List.mem_map.mp hit
  have hchunked : file.1 = false := by
    rw [List.any_eq_false] at hfull
    exact Bool.eq_false_iff.mpr (hfull file hfile)
  obtain ⟨chunked, a⟩ := file
  cases hchunked
  exact isFull_ofFullArgs _

theorem Extends.transferred {t : ServerDownloadThread} (h : Extends asked t) (todl : SQueueItem)
    {o : ScriptOutput} (hfull : (o.tarFiles.any fun file => file.1) = false) :
    Extends asked (t.transferred todl o).1 := by
  have hscript : Extends asked (if todl.isScript then t.queueScriptEnd todl else t) := by
    split
    · exact h.queueScriptEnd todl
    · exact h
  have htar : Extends asked (if todl.isScript && !todl.metadataOnly then
      (if todl.isScript then t.queueScriptEnd todl else t).addTarFiles o.tarFiles
      else (if todl.isScript then t.queueScriptEnd todl else t)) := by
    split
    · exact hscript.addTarFiles hfull
    · exact hscript
  unfold ServerDownloadThread.transferred
  dsimp only
  split
  · exact htar
  · exact htar

theorem Extends.loadFile {t : ServerDownloadThread} (h : Extends asked t) (todl : SQueueItem)
    {o : TransferOutcome} (hfull : (o.script.tarFiles.any fun file => file.1) = false)
    (saveIncompleteFile : Bool) : Extends asked (t.loadFile saveIncompleteFile todl o).1 := by
  unfold ServerDownloadThread.loadFile
  split
  · exact h
  · dsimp only
    split
    · exact h.transferred todl hfull
    · dsimp only
      split
      · exact h
      · split
        · exact h
        · exact h

theorem Extends.goOffline {t : ServerDownloadThread} (h : Extends asked t) (ret : Bool) :
    Extends asked (t.goOffline ret) := by
  cases ret with
  | true => exact h
  | false => exact h

theorem Extends.loaded {t : ServerDownloadThread} (h : Extends asked t) (todl : SQueueItem)
    {o : TransferOutcome} (hfull : (o.script.tarFiles.any fun file => file.1) = false)
    (saveIncompleteFile : Bool) (rc : ErrorCode) :
    Extends asked ((t.loadFile saveIncompleteFile todl
      { o with tempFile := true, rc := fun _ => rc }).1.goOffline
        (t.loadFile saveIncompleteFile todl { o with tempFile := true, rc := fun _ => rc }).2) := by
  apply Extends.goOffline
  apply h.loadFile
  exact hfull

end Queue

section Zip

variable {α β γ : Type} (f : α → β → γ)

theorem zipWith_append_left {as more : List α} {bs : List β} (h : bs.length ≤ as.length) :
    List.zipWith f (as ++ more) bs = List.zipWith f as bs := by
  induction as generalizing bs with
  | nil =>
    cases List.eq_nil_of_length_eq_zero (Nat.le_zero.mp h)
    rw [List.zipWith_nil_right, List.zipWith_nil_right]
  | cons a as ih =>
    cases bs with
    | nil => rw [List.zipWith_nil_right, List.zipWith_nil_right]
    | cons b bs =>
      rw [List.cons_append, List.zipWith_cons_cons, List.zipWith_cons_cons,
        ih (Nat.le_of_succ_le_succ h)]

theorem zipWith_append_right {as rest : List α} {bs : List β} {a : α} {b : β}
    (h : as.drop bs.length = a :: rest) :
    List.zipWith f as (bs ++ [b]) = List.zipWith f as bs ++ [f a b] := by
  induction bs generalizing as with
  | nil =>
    rw [List.length_nil, List.drop_zero] at h
    subst h
    rw [List.nil_append, List.zipWith_cons_cons, List.zipWith_nil_right, List.zipWith_nil_right,
      List.nil_append]
  | cons b' bs ih =>
    cases as with
    | nil => cases h
    | cons a' as =>
      rw [List.cons_append, List.zipWith_cons_cons, List.zipWith_cons_cons, List.cons_append,
        ih h]

theorem zipWith_drop {as : List α} {bs : List β} {k : Nat} {a : α} {b : β} (ha : as[k]? = some a)
    (hb : bs[k]? = some b) :
    (List.zipWith f as bs).drop k = f a b :: (List.zipWith f as bs).drop (k + 1) := by
  induction k generalizing as bs with
  | zero =>
    cases as with
    | nil => cases ha
    | cons a' as =>
      cases bs with
      | nil => cases hb
      | cons b' bs =>
        cases ha
        cases hb
        rfl
  | succ k ih =>
    cases as with
    | nil => cases ha
    | cons a' as =>
      cases bs with
      | nil => cases hb
      | cons b' bs => exact ih ha hb

end Zip

namespace Pipeline

def wire (cfg : PipelineConfig) (s : Pipeline) : List (List UInt8) :=
  List.zipWith (replyBytes cfg) s.sent s.replies

def ahead (cfg : PipelineConfig) (s : Pipeline) : List (List UInt8) :=
  (s.wire cfg).drop s.finished.length

/-- The items that were finished are the first ones that something was requested for, each by a
request of its kind, and each took from the connection the reply to it and nothing else. -/
structure InStep (cfg : PipelineConfig) (s : Pipeline) : Prop where
  kinds : ∀ p ∈ s.sent, p.2 = itemRequest cfg p.1
  items : s.finished.map Prod.fst <+: s.sent.map Prod.fst
  taken : s.finished.map Prod.snd <+: s.wire cfg
  asserted : s.assertionFailed = false

def Working.items : Working → List SQueueItem
  | .idle => []
  | .filling it _ _ | .reading it _ _ | .finishScript it => [it]

/-- The reply to the request of a transfer, or its rest, is the next thing to come. -/
def Transferring (cfg : PipelineConfig) (s : Pipeline) (g : GetFile) (got : List UInt8) : Prop :=
  got ++ s.stream = (s.ahead cfg).flatten ∧
    (s.replies.length = s.finished.length ∧ s.dlBuf = [] ∧ g = .start cfg.segmentHash .empty ∨
      ∃ r, s.replies[s.finished.length]? = some r ∧
        GetFile.Ongoing cfg.segmentHash cfg.hashedTransfer (fun _ _ => True) r
          ((s.ahead cfg).drop 1).flatten s.stream g s.dlBuf)

def Connected (cfg : PipelineConfig) (s : Pipeline) : Working → Prop
  | .idle => s.dlBuf ++ s.stream = (s.ahead cfg).flatten
  | .filling it g got | .reading it g got =>
    it.scriptEnd = false ∧ decide (1 < s.protocolVersion) = cfg.hashedTransfer ∧
      Transferring cfg s g got
  | .finishScript it => it.scriptEnd = true ∧ s.dlBuf = [] ∧ s.stream = (s.ahead cfg).flatten

/-- The queue while the thread works. No end of a script is among what was requested ahead. -/
structure Lined (cfg : PipelineConfig) (s : Pipeline) (asked later : List SQueueItem) : Prop where
  queue : s.thread.dlQueue = asked ++ later
  requested : Requested asked later
  queued : s.queued = asked.map fun it => ⟨path cfg it, false⟩
  files : ∀ it ∈ asked, it.scriptEnd = false
  sent : s.sent.map Prod.fst = s.finished.map Prod.fst ++ (Working.items s.working ++ asked)

structure Inv (cfg : PipelineConfig) (s : Pipeline) : Prop extends InStep cfg s where
  answers : s.replies.length ≤ s.sent.length
  answered : ∀ p ∈ s.sent.zip s.replies, p.1.2.Answered p.2
  version : cfg.hashedTransfer = true → 1 < s.protocolVersion
  offline : s.thread.isOffline = true → s.working = .idle
  lined : s.thread.isOffline = false → ∃ asked later, Lined cfg s asked later
  connected : s.thread.isOffline = false → Connected cfg s s.working

variable {cfg : PipelineConfig} {s s' : Pipeline}

theorem initial_lined (protocolVersion : Nat) : Lined cfg (initial protocolVersion) [] [] where
  queue := rfl
  requested := ⟨by simp, by simp, by simp⟩
  queued := rfl
  files := by simp
  sent := rfl

theorem initial_inv {protocolVersion : Nat} (h : 2 < protocolVersion) :
    Inv cfg (initial protocolVersion) where
  kinds _ hp := absurd hp List.not_mem_nil
  items := List.prefix_rfl
  taken := List.prefix_rfl
  asserted := rfl
  answers := Nat.le_refl _
  answered _ hp := absurd hp List.not_mem_nil
  version _ := Nat.lt_of_succ_lt h
  offline _ := rfl
  lined _ := ⟨[], [], initial_lined protocolVersion⟩
  connected _ := rfl

theorem Inv.online (h : Inv cfg s) (hworking : s.working ≠ .idle) : s.thread.isOffline = false :=
  Bool.eq_false_iff.mpr fun hoff => hworking (h.offline hoff)

/-- The request at the place of the first item that is not finished is for the item that the thread
is at. -/
theorem Lined.sent_current {asked later : List SQueueItem} (h : Lined cfg s asked later)
    {it : SQueueItem} {rest : List SQueueItem} (hit : Working.items s.working ++ asked = it :: rest) :
    ∃ p, s.sent[s.finished.length]? = some p ∧ p.1 = it := by
  have hget : (s.sent.map Prod.fst)[s.finished.length]? = some it := by
    rw [h.sent, hit, List.getElem?_append_right (by simp)]
    simp
  rw [List.getElem?_map] at hget
  exact Option.map_eq_some_iff.mp hget

theorem InStep.finished_le (h : InStep cfg s) : s.finished.length ≤ s.replies.length := by
  have hlen := h.taken.length_le
  rw [List.length_map, wire, List.length_zipWith] at hlen
  omega

theorem Inv.ahead_eq (h : Inv cfg s) {p : SQueueItem × ClientRequest} {r : Reply}
    (hp : s.sent[s.finished.length]? = some p) (hr : s.replies[s.finished.length]? = some r) :
    s.ahead cfg = replyBytes cfg p r :: (s.ahead cfg).drop 1 ∧ p.2.Answered r ∧
      p.2 = itemRequest cfg p.1 := by
  refine ⟨?_, ?_, ?_⟩
  · rw [ahead, wire, List.drop_drop]
    exact zipWith_drop _ hp hr
  · have hzip : (s.sent.zip s.replies)[s.finished.length]? = some (p, r) := by
      rw [List.getElem?_zip_eq_some]
      exact ⟨hp, hr⟩
    exact h.answered _ (List.mem_of_getElem? hzip)
  · exact h.kinds _ (List.mem_of_getElem? hp)

theorem Inv.ahead_nil (cfg : PipelineConfig) (h : s.replies.length ≤ s.finished.length) : s.ahead cfg = [] := by
  apply List.drop_of_length_le
  rw [wire, List.length_zipWith]
  omega

theorem replyBytes_file {p : SQueueItem × ClientRequest} {r : Reply}
    (hkind : p.2 = itemRequest cfg p.1) (hfile : p.1.scriptEnd = false) (hr : p.2.Answered r) :
    r.Answers p.1.metadataOnly ∧
      replyBytes cfg p r = r.bytes cfg.segmentHash cfg.hashedTransfer 0 := by
  rw [hkind] at hr
  unfold replyBytes
  rw [hkind]
  unfold itemRequest at hr ⊢
  rw [hfile, if_neg Bool.false_ne_true] at hr ⊢
  cases hmeta : p.1.metadataOnly with
  | true =>
    rw [hmeta, if_pos rfl] at hr
    refine ⟨hr, ?_⟩
    cases r with
    | code pid => rfl
    | filesize size => rfl
    | file data => exact absurd hr.1 Bool.noConfusion
    | sparse extents data => exact absurd hr.1 Bool.noConfusion
  | false =>
    rw [hmeta, if_neg Bool.false_ne_true] at hr
    rw [if_neg Bool.false_ne_true]
    split
    next hid =>
      rw [if_pos hid] at hr
      exact ⟨hr, rfl⟩
    next hid =>
      rw [if_neg hid] at hr
      cases htransfer : cfg.hashedTransfer with
      | true =>
        rw [htransfer] at hr
        exact ⟨hr, rfl⟩
      | false =>
        rw [htransfer] at hr
        exact ⟨hr, rfl⟩

theorem replyBytes_script {p : SQueueItem × ClientRequest} {r : Reply}
    (hkind : p.2 = itemRequest cfg p.1) (hend : p.1.scriptEnd = true) (hr : p.2.Answered r) :
    ∃ pid, replyBytes cfg p r = [pid] := by
  unfold itemRequest at hkind
  rw [hend, if_pos rfl] at hkind
  rw [hkind] at hr
  cases hr with
  | inl hpong =>
    rw [hpong]
    exact ⟨idPong, rfl⟩
  | inr hlost =>
    rw [hlost]
    exact ⟨idBaseDirLost, rfl⟩

theorem start_ready (c : SegmentHash) (backing : BackingFile) (size : Nat) :
    GetFile.Ready c (.start c backing) size where
  received := rfl
  inside := .inl rfl
  next := by
    change min c.checkpointDist size = min (0 + c.checkpointDist) size
    rw [Nat.zero_add]

/-- A transfer that begins finds the reply to its request in the buffer and the connection, or
nothing yet. -/
theorem Inv.transferring_start (h : Inv cfg s) {p : SQueueItem × ClientRequest}
    (hp : s.sent[s.finished.length]? = some p) (hfile : p.1.scriptEnd = false)
    (hconnected : s.dlBuf ++ s.stream = (s.ahead cfg).flatten) :
    Transferring cfg s (.start cfg.segmentHash .empty) s.dlBuf := by
  refine ⟨hconnected, ?_⟩
  cases Nat.lt_or_eq_of_le h.finished_le with
  | inl hlt =>
    have hr := List.getElem?_eq_getElem hlt
    obtain ⟨hahead, hanswered, hkind⟩ := h.ahead_eq hp hr
    obtain ⟨hanswers, hbytes⟩ := replyBytes_file hkind hfile hanswered
    refine .inr ⟨_, hr, _, .header rfl rfl rfl (start_ready _ _ _) trivial, ?_⟩
    rw [hconnected, hahead, hbytes, List.flatten_cons]
    rfl
  | inr heq =>
    rw [Inv.ahead_nil cfg heq.ge, List.flatten_nil] at hconnected
    exact .inl ⟨heq.symm, (List.append_eq_nil_iff.mp hconnected).1, rfl⟩

theorem Inv.requeue (h : Inv cfg s) {thread : ServerDownloadThread}
    (hoffline : thread.isOffline = s.thread.isOffline)
    (hqueue : ∀ asked, Extends asked s.thread → Extends asked thread) :
    Inv cfg { s with thread := thread } :=
  { h with
    offline hoff := h.offline (hoffline.symm.trans hoff)
    lined hon := by
      obtain ⟨asked, later, hlined⟩ := h.lined (hoffline.symm.trans hon)
      obtain ⟨later', hqueue', hrequested⟩ := hqueue asked ⟨later, hlined.queue, hlined.requested⟩
      exact ⟨asked, later', hqueue', hrequested, hlined.queued, hlined.files, hlined.sent⟩
    connected hon := h.connected (hoffline.symm.trans hon) }

theorem Inv.add (h : Inv cfg s) (a : QueueArgs) :
    Inv cfg { s with thread := s.thread.pushBack (.ofFullArgs a) } := by
  apply h.requeue
  · rfl
  · intro asked hextends
    apply hextends.append ?_ rfl
    intro it hit
    cases List.mem_singleton.mp hit
    exact isFull_ofFullArgs a

theorem Inv.reading {it : SQueueItem} {g : GetFile} {got : List UInt8} (h : Inv cfg s)
    (hworking : s.working = .filling it g got) : Inv cfg { s with working := .reading it g got } :=
  { h with
    offline hoff := by
      rw [h.offline hoff] at hworking
      cases hworking
    lined hon := by
      obtain ⟨asked, later, hlined⟩ := h.lined hon
      have hsent := hlined.sent
      rw [hworking] at hsent
      exact ⟨asked, later, hlined.queue, hlined.requested, hlined.queued, hlined.files, hsent⟩
    connected hon := by
      have hconnected := h.connected hon
      rw [hworking] at hconnected
      exact hconnected }

theorem Inv.loopHead {it : SQueueItem} {g : GetFile} {got : List UInt8}
    (h : Inv cfg { s with working := .reading it g got }) : Inv cfg (s.loopHead it g got) := by
  unfold Pipeline.loopHead
  split
  · exact h
  · refine ⟨⟨h.kinds, h.items, h.taken, h.asserted⟩, h.answers, h.answered, h.version, ?_, ?_,
      h.connected⟩
    · intro hoff
      exact nomatch h.offline hoff
    · intro hon
      obtain ⟨asked, later, hlined⟩ := h.lined hon
      exact ⟨asked, later, hlined.queue, hlined.requested, hlined.queued, hlined.files, hlined.sent⟩

theorem getFileRequest_kind {it : SQueueItem} {protocolVersion : Nat} (hfile : it.scriptEnd = false)
    (hversion : decide (1 < protocolVersion) = cfg.hashedTransfer) :
    getFileRequest cfg protocolVersion it = itemRequest cfg it := by
  unfold getFileRequest itemRequest
  rw [hfile, if_neg Bool.false_ne_true, ← hversion]
  simp only [decide_eq_true_eq]

theorem queuedRequest_kind {it : SQueueItem} {protocolVersion : Nat} (hfile : it.scriptEnd = false)
    (hversion : decide (1 < protocolVersion) = cfg.hashedTransfer) :
    queuedRequest cfg protocolVersion it = itemRequest cfg it := by
  rw [← getFileRequest_kind hfile hversion]
  unfold queuedRequest getFileRequest
  rw [hversion, ite_not]

/-- A request that is sent does not change what comes for those before it. -/
theorem wire_send (h : s.replies.length ≤ s.sent.length) (p : SQueueItem × ClientRequest) :
    List.zipWith (replyBytes cfg) (s.sent ++ [p]) s.replies = s.wire cfg :=
  zipWith_append_left _ h

theorem Inv.send (h : Inv cfg s) {it : SQueueItem} {request : ClientRequest}
    (hkind : request = itemRequest cfg it) :
    InStep cfg (s.send it request) ∧ (s.send it request).replies.length ≤
        (s.send it request).sent.length ∧
      (∀ p ∈ (s.send it request).sent.zip s.replies, p.1.2.Answered p.2) ∧
      (s.send it request).ahead cfg = s.ahead cfg := by
  refine ⟨⟨?_, ?_, ?_, h.asserted⟩, ?_, ?_, ?_⟩
  · intro p hp
    cases List.mem_append.mp hp with
    | inl hold => exact h.kinds p hold
    | inr hnew =>
      cases List.mem_singleton.mp hnew
      exact hkind
  · change s.finished.map Prod.fst <+: (s.sent ++ [(it, request)]).map Prod.fst
    rw [List.map_append]
    exact h.items.trans (List.prefix_append _ _)
  · change s.finished.map Prod.snd <+: List.zipWith _ (s.sent ++ [(it, request)]) s.replies
    rw [wire_send h.answers]
    exact h.taken
  · change s.replies.length ≤ (s.sent ++ [(it, request)]).length
    rw [List.length_append]
    exact h.answers.trans (Nat.le_add_right _ _)
  · intro p hp
    apply h.answered
    have hzip := @zipWith_append_left _ _ _ Prod.mk s.sent [(it, request)] s.replies h.answers
    change p ∈ List.zipWith Prod.mk s.sent s.replies
    rw [← hzip]
    exact hp
  · change (List.zipWith _ (s.sent ++ [(it, request)]) s.replies).drop s.finished.length = _
    rw [wire_send h.answers]
    rfl

theorem Inv.front (h : Inv cfg s) {it : SQueueItem} {rest asked later : List SQueueItem}
    (hidle : s.working = .idle) (hon : s.thread.isOffline = false)
    (hlined : Lined cfg s (it :: asked) later) (hqueue : s.thread.dlQueue = it :: rest)
    (hversion : decide (1 < s.protocolVersion) = cfg.hashedTransfer)
    (request : ClientRequest) {got : List UInt8} (hgot : got = s.dlBuf) :
    Inv cfg { ({ s with thread := { s.thread with dlQueue := rest } } : Pipeline).request cfg it
      false request with working := .reading it (.start cfg.segmentHash .empty) got } := by
  subst hgot
  have hqueued := hlined.queued
  rw [List.map_cons] at hqueued
  have hrest : rest = asked ++ later := by
    have hall := hlined.queue.symm.trans hqueue
    exact (List.cons.inj hall).2.symm
  have hfile := hlined.files it (List.mem_cons_self ..)
  have hsent := hlined.sent
  rw [hidle] at hsent
  unfold Pipeline.request
  rw [hqueued]
  refine ⟨⟨h.kinds, h.items, h.taken, ?_⟩, h.answers, h.answered, h.version, ?_, ?_, ?_⟩
  · change (s.assertionFailed || !(decide (path cfg it = path cfg it) && decide (false = false))) =
      false
    rw [h.asserted]
    simp
  · intro hoff
    exact nomatch hoff.symm.trans hon
  · intro _
    refine ⟨asked, later, hrest, hlined.requested.asked_tail, rfl, ?_, hsent⟩
    intro it' hit
    exact hlined.files it' (List.mem_cons_of_mem _ hit)
  · intro _
    obtain ⟨p, hp, rfl⟩ := hlined.sent_current (congrArg (Working.items · ++ it :: asked) hidle)
    have hconnected := h.connected hon
    rw [hidle] at hconnected
    exact ⟨hfile, hversion, h.transferring_start hp hfile hconnected⟩

/-- Nothing was requested ahead, so nothing comes before the reply to the next request. -/
theorem Inv.ahead_nil_of_idle (h : Inv cfg s) {later : List SQueueItem} (hidle : s.working = .idle)
    (hlined : Lined cfg s [] later) : s.replies.length ≤ s.finished.length := by
  have hsent := hlined.sent
  rw [hidle] at hsent
  have hlen := congrArg List.length hsent
  rw [List.length_map, List.length_append, List.length_map] at hlen
  exact h.answers.trans hlen.le

theorem Inv.direct (h : Inv cfg s) {it : SQueueItem} {rest later : List SQueueItem}
    (hidle : s.working = .idle) (hon : s.thread.isOffline = false)
    (hlined : Lined cfg s [] later) (hqueue : s.thread.dlQueue = it :: rest) {finishScript : Bool}
    {request : ClientRequest} (hkind : request = itemRequest cfg it) {working : Working}
    (hworking : Working.items working = [it])
    (hconnected : (s.send it request).ahead cfg = [] → s.dlBuf = [] → s.stream = [] →
      Connected cfg (s.send it request) working) :
    Inv cfg { ({ s with thread := { s.thread with dlQueue := rest } } : Pipeline).request cfg it
      finishScript request with working := working } := by
  have hnone : s.queued = [] := hlined.queued
  have hnil := Inv.ahead_nil cfg (h.ahead_nil_of_idle hidle hlined)
  have hbytes := h.connected hon
  rw [hidle] at hbytes
  change s.dlBuf ++ s.stream = (s.ahead cfg).flatten at hbytes
  rw [hnil] at hbytes
  have hempty := List.append_eq_nil_iff.mp hbytes
  have hlater : later = it :: rest := hlined.queue.symm.trans hqueue
  rw [hlater] at hlined
  have hsent : s.sent.map Prod.fst = s.finished.map Prod.fst := by
    have hall := hlined.sent
    rw [hidle] at hall
    exact hall.trans (List.append_nil _)
  obtain ⟨hinStep, hanswers, hanswered, hahead⟩ := h.send hkind
  unfold Pipeline.request
  rw [hnone]
  refine ⟨⟨hinStep.kinds, hinStep.items, hinStep.taken, hinStep.asserted⟩, hanswers, hanswered,
    h.version, ?_, ?_, ?_⟩
  · intro hoff
    exact nomatch hoff.symm.trans hon
  · intro _
    refine ⟨[], rest, rfl, hlined.requested.later_tail, rfl, hlined.files, ?_⟩
    change (s.sent ++ [(it, request)]).map Prod.fst =
      s.finished.map Prod.fst ++ (Working.items working ++ [])
    rw [List.map_append, hsent, hworking]
    rfl
  · intro _
    exact hconnected (hahead.trans hnil) hempty.1 hempty.2

theorem Inv.downgrade (h : Inv cfg s) (hidle : s.working = .idle) {protocolVersion : Nat}
    (hversion : cfg.hashedTransfer = true → 1 < protocolVersion) :
    Inv cfg { s with protocolVersion := protocolVersion } :=
  { h with
    version := hversion
    lined hon := by
      obtain ⟨asked, later, hlined⟩ := h.lined hon
      exact ⟨asked, later, hlined.queue, hlined.requested, hlined.queued, hlined.files, hlined.sent⟩
    connected hon := by
      have hconnected := h.connected hon
      change Connected cfg { s with protocolVersion := protocolVersion } s.working
      rw [hidle] at hconnected ⊢
      exact hconnected }

theorem spokenVersion (h : cfg.hashedTransfer = true → 1 < s.protocolVersion) :
    decide (1 < if !cfg.hashedTransfer && 1 < s.protocolVersion then 1 else s.protocolVersion) =
      cfg.hashedTransfer := by
  cases htransfer : cfg.hashedTransfer with
  | true => simpa using h htransfer
  | false =>
    split
    · rfl
    next hold => simpa using hold

end Pipeline

namespace ServerDownloadThread

variable (t : ServerDownloadThread) (it : SQueueItem)

/-- An item that is left out does not bring the client back. -/
theorem skipItem_isOffline (o : TransferOutcome) : (t.skipItem it o).isOffline = t.isOffline := by
  have huse : (t.useOldFile it o).isOffline = t.isOffline := by
    unfold useOldFile linkOrCopyFile
    cases o.linked with
    | true => rfl
    | false =>
      cases o.copied with
      | true => rfl
      | false => rfl
  unfold skipItem
  dsimp only
  split
  · exact huse
  · split
    · rfl
    · rfl

end ServerDownloadThread

namespace Pipeline

variable {cfg : PipelineConfig} {s s' : Pipeline}

theorem request_dlBuf (s : Pipeline) (it : SQueueItem) (finishScript : Bool)
    (request : ClientRequest) : (s.request cfg it finishScript request).dlBuf = s.dlBuf := by
  unfold Pipeline.request
  split
  · rfl
  · rfl

theorem Inv.startGetFile (h : Inv cfg s) {it : SQueueItem} {rest : List SQueueItem}
    (hidle : s.working = .idle) (hon : s.thread.isOffline = false)
    (hqueue : s.thread.dlQueue = it :: rest) (hfile : it.scriptEnd = false) :
    Inv cfg (({ s with thread := { s.thread with dlQueue := rest } } : Pipeline).startGetFile cfg
      it) := by
  have hspoken := @spokenVersion cfg s h.version
  have hkind := getFileRequest_kind hfile hspoken
  have hdowngrade : Inv cfg { s with
      protocolVersion :=
        if !cfg.hashedTransfer && 1 < s.protocolVersion then 1 else s.protocolVersion } := by
    apply h.downgrade hidle
    intro htransfer
    exact of_decide_eq_true (hspoken.trans htransfer)
  obtain ⟨asked, later, hlined⟩ := hdowngrade.lined hon
  apply Inv.loopHead
  cases asked with
  | cons front asked =>
    have hfront : front = it := (List.cons.inj (hlined.queue.symm.trans hqueue)).1
    rw [hfront] at hlined
    exact hdowngrade.front hidle hon hlined hqueue hspoken _ (request_dlBuf _ _ _ _)
  | nil =>
    apply hdowngrade.direct hidle hon hlined hqueue hkind rfl
    intro hahead hdlBuf hstream
    refine ⟨hfile, hspoken, ?_, ?_⟩
    · rw [hahead, request_dlBuf]
      exact List.append_eq_nil_iff.mpr ⟨hdlBuf, hstream⟩
    · refine .inl ⟨?_, hdlBuf, rfl⟩
      exact Nat.le_antisymm (hdowngrade.ahead_nil_of_idle hidle hlined) hdowngrade.finished_le

theorem Inv.startFinishScript (h : Inv cfg s) {it : SQueueItem} {rest : List SQueueItem}
    (hidle : s.working = .idle) (hon : s.thread.isOffline = false)
    (hqueue : s.thread.dlQueue = it :: rest) (hend : it.scriptEnd = true) :
    Inv cfg (({ s with thread := { s.thread with dlQueue := rest } } : Pipeline).startFinishScript
      cfg it) := by
  have hkind : ClientRequest.scriptFinish (path cfg it) = itemRequest cfg it := by
    unfold itemRequest
    rw [hend, if_pos rfl]
  obtain ⟨asked, later, hlined⟩ := h.lined hon
  cases asked with
  | cons front asked =>
    have hfront : front = it := (List.cons.inj (hlined.queue.symm.trans hqueue)).1
    have hfile := hlined.files front (List.mem_cons_self ..)
    rw [hfront, hend] at hfile
    cases hfile
  | nil =>
    apply h.direct hidle hon hlined hqueue hkind rfl
    intro hahead hdlBuf hstream
    refine ⟨hend, hdlBuf, ?_⟩
    rw [hahead]
    exact hstream

theorem Inv.gone (h : Inv cfg s) (hidle : s.working = .idle) {thread : ServerDownloadThread}
    (hoff : thread.isOffline = true) : Inv cfg { s with thread := thread } :=
  { h with
    offline _ := hidle
    lined hon := absurd (hoff.symm.trans hon) Bool.noConfusion
    connected hon := absurd (hoff.symm.trans hon) Bool.noConfusion }

theorem Inv.take (h : Inv cfg s) {o : TransferOutcome} (hstep : s.take cfg o = some s') :
    Inv cfg s' := by
  unfold Pipeline.take at hstep
  split at hstep
  next it rest hidle hqueue =>
    dsimp only at hstep
    split at hstep
    next hoff =>
      cases hstep
      exact h.gone hidle ((ServerDownloadThread.skipItem_isOffline _ it o).trans hoff)
    next hon =>
      have hon := Bool.eq_false_iff.mpr hon
      split at hstep
      next hend =>
        cases hstep
        exact h.startFinishScript hidle hon hqueue hend
      next hfile =>
        split at hstep
        · cases hstep
          exact h.gone hidle rfl
        · cases hstep
          exact h.startGetFile hidle hon hqueue (Bool.eq_false_iff.mpr hfile)
  next => cases hstep

/-- Where `fillQueue` is about to look ahead, the next item to request is a file with a path. -/
def NextOk (cfg : PipelineConfig) (s : Pipeline) : Event → Prop
  | .fill isWritable _ => isWritable = true → s.queued.length < maxQueuedFiles →
      ∀ it ∈ s.thread.dlQueue.find? (fun it => !it.queued),
        it.scriptEnd = false ∧ path cfg it ≠ []
  | .addToQueueFull _ | .take _ | .fillTimeout | .receive _ _ _ | .finishByte | .answer _ => True

instance (cfg : PipelineConfig) (s : Pipeline) (e : Event) : Decidable (NextOk cfg s e) :=
  match e with
  | .fill isWritable _ => inferInstanceAs (Decidable (isWritable = true →
      s.queued.length < maxQueuedFiles → ∀ it ∈ s.thread.dlQueue.find? (fun it => !it.queued),
        it.scriptEnd = false ∧ path cfg it ≠ []))
  | .addToQueueFull _ | .take _ | .fillTimeout | .receive _ _ _ | .finishByte | .answer _ =>
    .isTrue trivial

theorem find_requested {asked later : List SQueueItem} (h : Requested asked later) :
    (asked ++ later).find? (fun it => !it.queued) = later.head? := by
  have hasked : asked.find? (fun it => !it.queued) = none := by
    rw [List.find?_eq_none]
    intro it hit
    simp [h.asked it hit]
  rw [List.find?_append, hasked, Option.none_or]
  cases later with
  | nil => rfl
  | cons it rest => simp [h.later it (List.mem_cons_self ..)]

theorem Transferring.send {it : SQueueItem} {g : GetFile} {got : List UInt8}
    {request : ClientRequest} (h : Transferring cfg s g got)
    (hahead : (s.send it request).ahead cfg = s.ahead cfg) :
    Transferring cfg (s.send it request) g got := by
  unfold Transferring at h ⊢
  rw [hahead]
  exact h

theorem Inv.ask (h : Inv cfg s) {it next : SQueueItem} {g : GetFile} {got : List UInt8}
    {asked rest : List SQueueItem} (hon : s.thread.isOffline = false)
    (hworking : s.working = .filling it g got) (hlined : Lined cfg s asked (next :: rest))
    (hfile : next.scriptEnd = false) :
    Inv cfg { ({ s with thread := { s.thread with
          dlQueue := asked ++ { next with queued := true } :: rest } } : Pipeline).send
        { next with queued := true }
        (queuedRequest cfg s.protocolVersion { next with queued := true }) with
      queued := s.queued ++
        [⟨path cfg { next with queued := true }, { next with queued := true }.scriptEnd⟩] } := by
  have hconnected := h.connected hon
  rw [hworking] at hconnected
  obtain ⟨hcurr, hversion, htransferring⟩ := hconnected
  have hkind : queuedRequest cfg s.protocolVersion { next with queued := true } =
      itemRequest cfg { next with queued := true } := queuedRequest_kind hfile hversion
  obtain ⟨hinStep, hanswers, hanswered, hahead⟩ := h.send hkind
  refine ⟨⟨hinStep.kinds, hinStep.items, hinStep.taken, hinStep.asserted⟩, hanswers, hanswered,
    h.version, h.offline, ?_, ?_⟩
  · intro _
    refine ⟨asked ++ [{ next with queued := true }], rest, ?_, hlined.requested.ask, ?_, ?_, ?_⟩
    · rw [List.append_assoc]
      rfl
    · rw [List.map_append, ← hlined.queued]
      change s.queued ++ [⟨_, next.scriptEnd⟩] = _
      rw [hfile]
      rfl
    · intro it' hit
      cases List.mem_append.mp hit with
      | inl hold => exact hlined.files it' hold
      | inr hnew =>
        rw [List.mem_singleton.mp hnew]
        exact hfile
    · change (s.sent ++ [(_, _)]).map Prod.fst = _ ++ (Working.items s.working ++ (asked ++ [_]))
      rw [List.map_append, hlined.sent, List.append_assoc, List.append_assoc]
      rfl
  · intro _
    change Connected cfg _ s.working
    rw [hworking]
    exact ⟨hcurr, hversion, htransferring.send hahead⟩

theorem Inv.fill (h : Inv cfg s) {isWritable : Bool} {prepare : SQueueItem → PrepareOutcome}
    (hok : NextOk cfg s (.fill isWritable prepare)) (hstep : s.fill cfg isWritable prepare = some s') :
    Inv cfg s' := by
  unfold Pipeline.fill at hstep
  split at hstep
  next it g got hworking =>
    dsimp only at hstep
    split at hstep
    · cases hstep
      exact h.reading hworking
    next hroom =>
      have hon := h.online (by rw [hworking]; exact Working.noConfusion)
      obtain ⟨asked, later, hlined⟩ := h.lined hon
      have hfind := find_requested hlined.requested
      rw [← hlined.queue] at hfind
      rw [hlined.queue] at hstep
      cases later with
      | nil =>
        rw [List.append_nil, getQueuedFileFull_none prepare hlined.requested] at hstep
        cases hstep
        have hqueue : asked = s.thread.dlQueue := by rw [hlined.queue, List.append_nil]
        rw [hqueue]
        exact h.reading hworking
      | cons next rest =>
        rw [getQueuedFileFull_found prepare hlined.requested] at hstep
        simp only [Bool.or_eq_true, decide_eq_true_eq, Bool.not_eq_true', not_or, not_le,
          Bool.not_eq_false] at hroom
        obtain ⟨hfile, hpath⟩ := hok hroom.2 hroom.1 next hfind
        cases hempty : (path cfg { next with queued := true }).isEmpty with
        | true => exact absurd (List.isEmpty_iff.mp hempty) hpath
        | false =>
          dsimp only at hstep
          rw [hempty, if_neg Bool.false_ne_true] at hstep
          cases hstep
          exact h.ask hon hworking hlined hfile
  next => cases hstep

theorem Inv.fillTimeout (h : Inv cfg s) (hstep : s.fillTimeout = some s') : Inv cfg s' := by
  unfold Pipeline.fillTimeout at hstep
  split at hstep
  next it g got hworking =>
    cases hstep
    exact h.reading hworking
  next => cases hstep

theorem Inv.finish (h : Inv cfg s) (hon : s.thread.isOffline = false) {it : SQueueItem}
    (hitems : Working.items s.working = [it]) {p : SQueueItem × ClientRequest} {r : Reply}
    (hp : s.sent[s.finished.length]? = some p) (hr : s.replies[s.finished.length]? = some r)
    {thread : ServerDownloadThread} (hqueue : ∀ asked, Extends asked s.thread → Extends asked thread)
    {dlBuf stream : List UInt8} (hleft : dlBuf ++ stream = ((s.ahead cfg).drop 1).flatten) :
    Inv cfg { s with
      thread := thread
      dlBuf := dlBuf
      stream := stream
      finished := s.finished ++ [(it, replyBytes cfg p r)]
      working := .idle } := by
  obtain ⟨hahead, _, _⟩ := h.ahead_eq hp hr
  obtain ⟨asked, later, hlined⟩ := h.lined hon
  have hsent := hlined.sent
  rw [hitems, List.singleton_append, List.append_cons] at hsent
  refine ⟨⟨h.kinds, ?_, ?_, h.asserted⟩, h.answers, h.answered, h.version, fun _ => rfl, ?_, ?_⟩
  · change (s.finished ++ [(it, replyBytes cfg p r)]).map Prod.fst <+: s.sent.map Prod.fst
    rw [hsent, List.map_append]
    exact List.prefix_append _ _
  · change (s.finished ++ [(it, replyBytes cfg p r)]).map Prod.snd <+: s.wire cfg
    obtain ⟨rest, hrest⟩ := h.taken
    have hlen : s.finished.length = (s.finished.map Prod.snd).length := by rw [List.length_map]
    rw [ahead, ← hrest, hlen, List.drop_left] at hahead
    rw [← hrest, hahead, List.map_append, List.append_cons]
    exact List.prefix_append _ _
  · intro _
    obtain ⟨later', hqueue', hrequested⟩ := hqueue asked ⟨later, hlined.queue, hlined.requested⟩
    refine ⟨asked, later', hqueue', hrequested, hlined.queued, hlined.files, ?_⟩
    change s.sent.map Prod.fst = (s.finished ++ [(it, replyBytes cfg p r)]).map Prod.fst ++ ([] ++ asked)
    rw [hsent, List.map_append]
    rfl
  · intro _
    change dlBuf ++ stream = ((s.wire cfg).drop (s.finished ++ [_]).length).flatten
    rw [hleft, ahead, List.drop_drop, List.length_append]
    rfl

theorem Inv.finishByte (h : Inv cfg s) (hstep : s.finishByte = some s') : Inv cfg s' := by
  unfold Pipeline.finishByte at hstep
  split at hstep
  next it b rest hworking hstream =>
    cases hstep
    have hon := h.online (by rw [hworking]; exact Working.noConfusion)
    have hconnected := h.connected hon
    rw [hworking] at hconnected
    obtain ⟨hend, hdlBuf, hbytes⟩ := hconnected
    obtain ⟨asked, later, hlined⟩ := h.lined hon
    have hitems := congrArg Working.items hworking
    obtain ⟨p, hp, hit⟩ := hlined.sent_current (congrArg (· ++ asked) hitems)
    cases Nat.lt_or_eq_of_le h.finished_le with
    | inr heq =>
      rw [Inv.ahead_nil cfg heq.ge, hstream] at hbytes
      cases hbytes
    | inl hlt =>
      have hr := List.getElem?_eq_getElem hlt
      obtain ⟨hahead, hanswered, hkind⟩ := h.ahead_eq hp hr
      obtain ⟨pid, hpid⟩ := replyBytes_script hkind (hit ▸ hend) hanswered
      rw [hahead, hpid, hstream] at hbytes
      cases hbytes
      have hleft : s.dlBuf ++ ((s.ahead cfg).drop 1).flatten = ((s.ahead cfg).drop 1).flatten := by
        rw [hdlBuf, List.nil_append]
      have hfinish := h.finish hon hitems hp hr (fun _ hext => hext) hleft
      rw [hpid] at hfinish
      exact hfinish
  next => cases hstep

/-- A round that does not end the transfer. -/
theorem Inv.more (h : Inv cfg s) {it : SQueueItem} {g g' : GetFile} {got kept : List UInt8} {k : Nat}
    {r : Reply} (hworking : s.working = .reading it g got) (hon : s.thread.isOffline = false)
    (hfile : it.scriptEnd = false) (hversion : decide (1 < s.protocolVersion) = cfg.hashedTransfer)
    (hr : s.replies[s.finished.length]? = some r) (hgot : got ++ s.stream = (s.ahead cfg).flatten)
    (hongoing : GetFile.Ongoing cfg.segmentHash cfg.hashedTransfer (fun _ _ => True) r
      ((s.ahead cfg).drop 1).flatten (s.stream.drop k) g' kept) :
    Inv cfg { s with
      stream := s.stream.drop k
      dlBuf := kept
      working := .reading it g' (got ++ s.stream.take k) } where
  kinds := h.kinds
  items := h.items
  taken := h.taken
  asserted := h.asserted
  answers := h.answers
  answered := h.answered
  version := h.version
  offline hoff := absurd (hoff.symm.trans hon) Bool.noConfusion
  lined _ := by
    obtain ⟨asked, later, hlined⟩ := h.lined hon
    have hsent := hlined.sent
    rw [hworking] at hsent
    exact ⟨asked, later, hlined.queue, hlined.requested, hlined.queued, hlined.files, hsent⟩
  connected _ := by
    refine ⟨hfile, hversion, ?_, .inr ⟨r, hr, hongoing⟩⟩
    rw [List.append_assoc, List.take_append_drop]
    exact hgot

theorem read_ne_nil {g : GetFile} {isReadable : Bool} {k : Nat}
    (hread : ¬ (s.mustRead g isReadable && !(0 < k && k ≤ s.stream.length
      && s.dlBuf.length + k ≤ bufferSize)) = true) : s.dlBuf ++ s.stream.take k ≠ [] := by
  intro hnil
  obtain ⟨hdlBuf, htake⟩ := List.append_eq_nil_iff.mp hnil
  have hmust : s.mustRead g isReadable = true := by
    unfold mustRead
    rw [hdlBuf]
    simp
  rw [hmust] at hread
  simp only [Bool.true_and, Bool.not_eq_true', Bool.not_eq_false, Bool.and_eq_true,
    decide_eq_true_eq] at hread
  have hlen := congrArg List.length htake
  rw [List.length_take, List.length_nil] at hlen
  omega

theorem Inv.receive (h : Inv cfg s) {isReadable : Bool} {n : Nat} {o : TransferOutcome}
    (hstep : s.receive cfg isReadable n o = some s') : Inv cfg s' := by
  unfold Pipeline.receive at hstep
  split at hstep
  next it g got hworking =>
    have hon := h.online (by rw [hworking]; exact Working.noConfusion)
    have hconnected := h.connected hon
    rw [hworking] at hconnected
    obtain ⟨hfile, hversion, hgot, hongoing⟩ := hconnected
    obtain ⟨asked, later, hlined⟩ := h.lined hon
    have hitems := congrArg Working.items hworking
    obtain ⟨p, hp, hit⟩ := hlined.sent_current (congrArg (· ++ asked) hitems)
    dsimp only at hstep
    generalize (if s.mustRead g isReadable = true then n else 0) = k at hstep
    split at hstep
    next => cases hstep
    next hread =>
      have hbuf := read_ne_nil hread
      have htake : s.dlBuf ++ s.stream.take k ++ s.stream.drop k = s.dlBuf ++ s.stream := by
        rw [List.append_assoc, List.take_append_drop]
      split at hstep
      next => cases hstep
      next hfull =>
        rcases hongoing with ⟨heq, hdlBuf, hstart⟩ | ⟨r, hr, hongoing⟩
        · rw [Inv.ahead_nil cfg heq.le, List.flatten_nil] at hgot
          rw [hdlBuf, (List.append_eq_nil_iff.mp hgot).2] at hbuf
          exact absurd List.take_nil hbuf
        · obtain ⟨hahead, hanswered, hkind⟩ := h.ahead_eq hp hr
          obtain ⟨hanswers, hbytes⟩ := replyBytes_file hkind (hit ▸ hfile) hanswered
          rw [hit] at hanswers
          have hread : GetFile.Ongoing cfg.segmentHash cfg.hashedTransfer (fun _ _ => True) r
              ((s.ahead cfg).drop 1).flatten (s.stream.drop k) g
              (s.dlBuf ++ s.stream.take k) := by
            obtain ⟨rest, hexpects, happ⟩ := hongoing
            exact ⟨rest, hexpects, htake.trans happ⟩
          have hspec := GetFile.receive_spec (fun _ _ _ _ _ => trivial) hanswers hbuf hread
          rw [hversion] at hstep
          cases hround : g.receive cfg.segmentHash it.metadataOnly cfg.hashedTransfer
              (s.dlBuf ++ s.stream.take k) with
          | reconnected rc g' =>
            rw [hround] at hspec
            exact hspec.elim
          | more g' kept =>
            rw [hround] at hspec hstep
            cases hstep
            apply Inv.loopHead
            exact h.more hworking hon hfile hversion hr hgot hspec.1
          | returned rc g' left =>
            rw [hround] at hspec hstep
            cases hstep
            have hgot' : got ++ s.stream.take k = replyBytes cfg p r ++ left := by
              apply @List.append_cancel_right _ _ (s.stream.drop k)
              rw [List.append_assoc, List.take_append_drop, hgot, List.append_assoc,
                hspec.2.1, hahead]
              rfl
            have hconsumed : (got ++ s.stream.take k).take
                ((got ++ s.stream.take k).length - left.length) = replyBytes cfg p r := by
              rw [hgot', List.length_append, Nat.add_sub_cancel, List.take_left]
            have hfinish := h.finish hon hitems hp hr
              (fun asked hext => hext.loaded it (Bool.eq_false_iff.mpr hfull)
                cfg.saveIncompleteFile rc)
              hspec.2.1
            rw [← hconsumed] at hfinish
            exact hfinish
  next => cases hstep

section Answers

variable {p : SQueueItem × ClientRequest} {rest : List (SQueueItem × ClientRequest)} {reply : Reply}

def withReply (cfg : PipelineConfig) (s : Pipeline) (p : SQueueItem × ClientRequest)
    (reply : Reply) : Pipeline :=
  { s with
    stream := s.stream ++ replyBytes cfg p reply
    replies := s.replies ++ [reply] }

theorem wire_withReply (hnext : s.sent.drop s.replies.length = p :: rest) :
    (withReply cfg s p reply).wire cfg = s.wire cfg ++ [replyBytes cfg p reply] :=
  zipWith_append_right _ hnext

theorem Inv.ahead_withReply (h : Inv cfg s) (reply : Reply) (hnext : s.sent.drop s.replies.length = p :: rest) :
    (withReply cfg s p reply).ahead cfg = s.ahead cfg ++ [replyBytes cfg p reply] := by
  unfold ahead
  rw [wire_withReply hnext]
  apply List.drop_append_of_le_length
  have hlen := h.taken.length_le
  rw [List.length_map] at hlen
  exact hlen

theorem Transferring.withReply (h : Inv cfg s) {g : GetFile} {got : List UInt8}
    (hnext : s.sent.drop s.replies.length = p :: rest) (hreply : p.2.Answered reply)
    (hfile : s.replies.length = s.finished.length → p.1.scriptEnd = false)
    (htransferring : Transferring cfg s g got) :
    Transferring cfg (withReply cfg s p reply) g got := by
  obtain ⟨hgot, hongoing⟩ := htransferring
  have hahead := h.ahead_withReply reply hnext
  refine ⟨?_, .inr ?_⟩
  · rw [hahead, List.flatten_append, ← hgot, List.flatten_singleton, List.append_assoc]
    rfl
  · rcases hongoing with ⟨heq, hdlBuf, rfl⟩ | ⟨r, hr, before, hexpects, happ⟩
    · have hnil := Inv.ahead_nil cfg heq.le
      have hp : p ∈ s.sent := List.mem_of_mem_drop (hnext ▸ List.mem_cons_self ..)
      obtain ⟨_, hbytes⟩ := replyBytes_file (h.kinds p hp) (hfile heq) hreply
      refine ⟨reply, ?_, _, .header rfl rfl rfl (start_ready _ _ _) trivial, ?_⟩
      · change (s.replies ++ [reply])[s.finished.length]? = _
        rw [← heq, List.getElem?_concat_length]
      · rw [hnil, List.flatten_nil] at hgot
        rw [hahead, hnil]
        change s.dlBuf ++ (s.stream ++ replyBytes cfg p reply) = _
        rw [hdlBuf, (List.append_eq_nil_iff.mp hgot).2, hbytes]
        exact (List.append_nil _).symm
    · refine ⟨r, ?_, before, hexpects, ?_⟩
      · exact (List.getElem?_append_left (List.getElem?_eq_some_iff.mp hr).1).trans hr
      · have hlt := (List.getElem?_eq_some_iff.mp hr).1
        have hlen : (s.ahead cfg).length = s.replies.length - s.finished.length := by
          rw [ahead, wire, List.length_drop, List.length_zipWith, Nat.min_eq_right h.answers]
        change s.dlBuf ++ (s.stream ++ replyBytes cfg p reply) = _
        rw [hahead, List.drop_append_of_le_length (by omega), List.flatten_append,
          List.flatten_singleton, ← List.append_assoc, happ, List.append_assoc]

theorem Inv.connected_withReply (h : Inv cfg s) (hnext : s.sent.drop s.replies.length = p :: rest)
    (hreply : p.2.Answered reply) (hon : s.thread.isOffline = false) :
    Connected cfg (withReply cfg s p reply) s.working := by
  have hahead := h.ahead_withReply reply hnext
  have hconnected := h.connected hon
  obtain ⟨asked, later, hlined⟩ := h.lined hon
  -- a transfer that waits for its reply gets it now
  have hcurrent (it : SQueueItem) (hitems : Working.items s.working = [it])
      (hfile : it.scriptEnd = false) (heq : s.replies.length = s.finished.length) :
      p.1.scriptEnd = false := by
    obtain ⟨q, hq, rfl⟩ := hlined.sent_current (congrArg (· ++ asked) hitems)
    have hp : s.sent[s.replies.length]? = some p := by
      rw [← List.head?_drop, hnext]
      rfl
    rw [heq, hq] at hp
    cases hp
    exact hfile
  cases hworking : s.working with
  | idle =>
    rw [hworking] at hconnected
    change s.dlBuf ++ (s.stream ++ replyBytes cfg p reply) = _
    rw [hahead, List.flatten_append, List.flatten_singleton, ← List.append_assoc, hconnected]
  | filling it g got =>
    rw [hworking] at hconnected hcurrent
    obtain ⟨hfile, hversion, htransferring⟩ := hconnected
    exact ⟨hfile, hversion, htransferring.withReply h hnext hreply (hcurrent it rfl hfile)⟩
  | reading it g got =>
    rw [hworking] at hconnected hcurrent
    obtain ⟨hfile, hversion, htransferring⟩ := hconnected
    exact ⟨hfile, hversion, htransferring.withReply h hnext hreply (hcurrent it rfl hfile)⟩
  | finishScript it =>
    rw [hworking] at hconnected
    obtain ⟨hend, hdlBuf, hstream⟩ := hconnected
    refine ⟨hend, hdlBuf, ?_⟩
    change s.stream ++ replyBytes cfg p reply = _
    rw [hahead, List.flatten_append, List.flatten_singleton, hstream]

theorem Inv.answer (h : Inv cfg s) (hstep : s.answer cfg reply = some s') : Inv cfg s' := by
  unfold Pipeline.answer at hstep
  split at hstep
  next => cases hstep
  next p rest hnext =>
    split at hstep
    next hreply =>
      cases hstep
      have hlt : s.replies.length < s.sent.length := by
        have hlen := congrArg List.length hnext
        rw [List.length_drop, List.length_cons] at hlen
        omega
      refine ⟨⟨h.kinds, h.items, ?_, h.asserted⟩, ?_, ?_, h.version, h.offline, ?_, ?_⟩
      · change s.finished.map Prod.snd <+: (withReply cfg s p reply).wire cfg
        rw [wire_withReply hnext]
        exact h.taken.trans (List.prefix_append _ _)
      · change (s.replies ++ [reply]).length ≤ s.sent.length
        rw [List.length_append]
        exact hlt
      · intro q hq
        have hzip := @zipWith_append_right _ _ _ Prod.mk _ _ _ _ reply hnext
        have hq' : q ∈ List.zipWith Prod.mk s.sent s.replies ++ [(p, reply)] := hzip ▸ hq
        cases List.mem_append.mp hq' with
        | inl hold => exact h.answered q hold
        | inr hnew =>
          rw [List.mem_singleton.mp hnew]
          exact hreply
      · intro hon
        obtain ⟨asked, later, hlined⟩ := h.lined hon
        exact ⟨asked, later, hlined.queue, hlined.requested, hlined.queued, hlined.files,
          hlined.sent⟩
      · intro hon
        exact h.connected_withReply hnext hreply hon
    next => cases hstep

end Answers

theorem Inv.step {e : Event} (h : Inv cfg s) (hok : NextOk cfg s e)
    (hstep : s.step cfg e = some s') : Inv cfg s' := by
  unfold Pipeline.step at hstep
  split at hstep
  · cases hstep
  · cases e with
    | addToQueueFull a =>
      cases hstep
      exact h.add a
    | take o => exact h.take hstep
    | fill isWritable prepare => exact h.fill hok hstep
    | fillTimeout => exact h.fillTimeout hstep
    | receive isReadable n o => exact h.receive hstep
    | finishByte => exact h.finishByte hstep
    | answer reply => exact h.answer hstep

open TransitionSystem

/-- Every transfer takes the reply to its own request, and every end of a script its own byte, in a
run in which `fillQueue` never comes to the end of a script. The queue is looked ahead in with
clients from version 3 on. -/
theorem inStep_of_run {protocolVersion : Nat} {es : List Event} (hversion : 2 < protocolVersion)
    (hok : Guarded (step cfg) (NextOk cfg) (initial protocolVersion) es)
    (hrun : run (step cfg) (initial protocolVersion) es = some s) : InStep cfg s := by
  have hinv : Inv cfg s := by
    apply guarded_run_invariant ?_ (initial_inv hversion) hok hrun
    intro s e s' hs hok hstep
    exact hs.step hok hstep
  exact hinv.toInStep

section Script

def scriptConfig : PipelineConfig where
  dl := ⟨0, [116], false⟩
  segmentHash := .ofMd5 fun _ => Vector.replicate 16 0
  hashedTransfer := true
  saveIncompleteFile := false

def scriptArgs (id : Nat) (name : UInt8) (isScript : Bool) : QueueArgs :=
  ⟨id, [name], [], isScript, false, 0, 0⟩

def scriptPrepare : SQueueItem → PrepareOutcome := fun _ => ⟨false, false, false, false, false⟩

def scriptOutcome : TransferOutcome where
  tempFile := true
  prepare := ⟨false, false, false, false, false⟩
  rc := fun _ => .success
  retryTempFiles := fun _ => true
  received := true
  readingFailed := false
  linked := false
  copied := false
  shadowcopyOk := true
  script := ⟨true, true, []⟩

/-- All is requested ahead, up to the end of the script that comes when the script was run. -/
def scriptEvents : List Event :=
  [.addToQueueFull (scriptArgs 1 97 false), .addToQueueFull (scriptArgs 2 98 true),
    .addToQueueFull (scriptArgs 3 99 false), .take scriptOutcome, .fill true scriptPrepare,
    .fill true scriptPrepare, .fill true scriptPrepare, .answer (.file []),
    .receive true 9 scriptOutcome, .take scriptOutcome, .answer (.file []),
    .receive true 9 scriptOutcome, .take scriptOutcome, .fill true scriptPrepare]

theorem script_end_requested_as_file :
    ∃ s, run (step scriptConfig) (initial 3) scriptEvents = some s ∧ ¬ InStep scriptConfig s := by
  have hsent : (run (step scriptConfig) (initial 3) scriptEvents).any (fun s =>
      s.sent.any fun p => !decide (p.2 = itemRequest scriptConfig p.1)) = true := by
    decide +kernel
  obtain ⟨s, hrun, hany⟩ := (Option.any_eq_true _ _).mp hsent
  refine ⟨s, hrun, ?_⟩
  intro h
  obtain ⟨p, hp, hkind⟩ := List.any_eq_true.mp hany
  rw [h.kinds p hp] at hkind
  simp at hkind

def fileEvents : List Event :=
  [.addToQueueFull (scriptArgs 1 97 false), .addToQueueFull (scriptArgs 2 98 false),
    .take scriptOutcome, .fill true scriptPrepare, .fillTimeout, .answer (.file []),
    .answer (.code idCouldntOpen), .receive true 10 scriptOutcome, .take scriptOutcome,
    .fill true scriptPrepare]

theorem inStep_of_run_files :
    ∃ s, run (step scriptConfig) (initial 3) fileEvents = some s ∧ s.finished.length = 1 ∧
      InStep scriptConfig s := by
  have hsome : (run (step scriptConfig) (initial 3) fileEvents).any (fun s =>
      s.finished.length = 1) = true := by
    decide +kernel
  obtain ⟨s, hrun, hlen⟩ := (Option.any_eq_true _ _).mp hsome
  exact ⟨s, hrun, of_decide_eq_true hlen, inStep_of_run (by decide) (by decide +kernel) hrun⟩

end Script

end Pipeline

end UrBackup
