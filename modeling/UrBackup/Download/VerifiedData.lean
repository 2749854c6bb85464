import Mathlib
import UrBackup.Download.Resume

/-! What a hashed transfer accepts: when its bytes are verified, and how some of them are not. -/
namespace UrBackup

open TransitionSystem

/-- The bytes before some place are those of checked segments. -/
def CheckedUpTo (bytes : ByteStore) (checked : List CheckedSegment) (n : Nat) : Prop :=
  ∀ i < n, ∃ segment ∈ checked, segment.start ≤ i ∧
    segment.data[i - segment.start]? = some (bytes i)

section CheckedUpTo

variable {bytes bytes' : ByteStore} {checked : List CheckedSegment} {n m : Nat}

theorem CheckedUpTo.mono (h : CheckedUpTo bytes checked n) (hle : m ≤ n) : CheckedUpTo bytes checked m :=
  fun i hi => h i (Nat.lt_of_lt_of_le hi hle)

theorem CheckedUpTo.congr (h : CheckedUpTo bytes checked n) (hsame : ∀ i < n, bytes' i = bytes i) :
    CheckedUpTo bytes' checked n := by
  intro i hi
  rw [hsame i hi]
  exact h i hi

theorem CheckedUpTo.append (h : CheckedUpTo bytes checked n) (more : List CheckedSegment) :
    CheckedUpTo bytes (checked ++ more) n := by
  intro i hi
  obtain ⟨segment, hmem, hsegment⟩ := h i hi
  exact ⟨segment, List.mem_append_left more hmem, hsegment⟩

theorem CheckedUpTo.extend {data : List UInt8} (h : CheckedUpTo bytes checked n)
    (hdata : bytes.read n data.length = data) :
    CheckedUpTo bytes (checked ++ [⟨n, data⟩]) (n + data.length) := by
  intro i hi
  by_cases hlt : i < n
  · exact h.append _ i hlt
  · refine ⟨⟨n, data⟩, by simp, Nat.le_of_not_lt hlt, ?_⟩
    have hget : i - n < (bytes.read n data.length).length := by
      rw [ByteStore.read_length]
      omega
    dsimp only
    rw [← hdata, List.getElem?_eq_getElem hget, ByteStore.getElem_read]
    congr 2
    omega

end CheckedUpTo

namespace GetFile

def hashPart (g : GetFile) : List UInt8 := if g.state = .hash then g.hashBuf else []

/-- A transfer that is under way, with the bytes that it has not used. What is behind the start of
the segment is not verified yet. -/
structure Underway (got : List UInt8) (checked : List CheckedSegment) (g : GetFile)
    (buf : List UInt8) : Prop where
  sparse : g.file.sparse = none
  pos : g.file.backing.pos = g.received
  short : g.hashed.length ≤ g.received
  size : g.received ≤ g.file.backing.stored.size
  hashed : g.file.backing.stored.bytes.read (g.received - g.hashed.length) g.hashed.length = g.hashed
  covered : CheckedUpTo g.file.backing.stored.bytes checked (g.received - g.hashed.length)
  next : g.received ≤ g.nextCheckpoint
  last : g.lastCheckpoint + g.hashed.length ≤ g.received ∨
    g.state = .hash ∧ g.lastCheckpoint = g.received
  first : g.firstpacket = true → g.state = .data ∧ g.hashed = []
  later : g.firstpacket = false →
    g.file.backing.stored.size ≤ g.filesize ∧ g.nextCheckpoint ≤ g.filesize
  state : g.state ≠ .sparseExtends
  tail : ∃ before, got = before ++ (g.hashed ++ (g.hashPart ++ buf))

/-- What came over the connection has the segments with their hashes. -/
def Delivered (c : SegmentHash) (got : List UInt8) (checks : List CheckedSegment) : Prop :=
  ∀ segment ∈ checks, segment.data ++ (c.md5 segment.data).toList <:+: got

/-- What a round comes to. -/
def RoundSafe (got : List UInt8) (checked : List CheckedSegment) : Round → Prop
  | .returned rc g _ => rc = .success →
      CheckedUpTo g.file.backing.stored.bytes checked g.file.backing.stored.size
  | .reconnected rc _ => rc ≠ .success
  | .more g kept => Underway got checked g kept

/-- What a stage of a round comes to. -/
def StageSafe (got : List UInt8) (checked : List CheckedSegment)
    (P : GetFile → List UInt8 → Prop) : Except Round (GetFile × List UInt8) → Prop
  | .error round => RoundSafe got checked round
  | .ok (g, buf) => Underway got checked g buf ∧ P g buf

variable {c : SegmentHash} {got buf : List UInt8} {checked : List CheckedSegment} {g : GetFile}

theorem StageSafe.imp {P Q : GetFile → List UInt8 → Prop} {stage : Except Round (GetFile × List UInt8)}
    (h : StageSafe got checked P stage) (hPQ : ∀ g buf, P g buf → Q g buf) :
    StageSafe got checked Q stage := by
  cases stage with
  | error round => exact h
  | ok taken => exact ⟨h.1, hPQ _ _ h.2⟩

namespace Underway

theorem start (c : SegmentHash) (stored : StoredFile) (buf : List UInt8) :
    Underway buf [] (.start c ⟨stored, 0⟩) buf where
  sparse := rfl
  pos := rfl
  short := Nat.le_refl 0
  size := Nat.zero_le _
  hashed := rfl
  covered := nofun
  next := Nat.zero_le _
  last := .inl (Nat.le_refl 0)
  first := fun _ => ⟨rfl, rfl⟩
  later := nofun
  state := nofun
  tail := ⟨[], rfl⟩

/-- The data since the last checkpoint that was verified is asked for again. -/
theorem reconnect (h : Underway got checked g buf)
    (hresumable : ¬ (g.state = .hash ∧ g.lastCheckpoint = g.received)) :
    Underway [] checked (g.reconnect true) [] := by
  have hlast := h.last.resolve_right hresumable
  have hseek : g.file.seek g.lastCheckpoint = { g.file with
      backing := g.file.backing.seek g.lastCheckpoint } := by
    simp only [DownloadFile.seek, h.sparse]
  exact {
    sparse := by
      change (g.file.seek g.lastCheckpoint).sparse = none
      rw [hseek]
      exact h.sparse
    pos := by
      change (g.file.seek g.lastCheckpoint).backing.pos = g.lastCheckpoint
      rw [hseek]
      rfl
    short := Nat.zero_le _
    size := by
      change g.lastCheckpoint ≤ (g.file.seek g.lastCheckpoint).backing.stored.size
      rw [hseek]
      exact (Nat.le_trans (Nat.le_add_right _ _) hlast).trans h.size
    hashed := rfl
    covered := by
      change CheckedUpTo (g.file.seek g.lastCheckpoint).backing.stored.bytes checked g.lastCheckpoint
      rw [hseek]
      exact h.covered.mono (Nat.le_sub_of_add_le hlast)
    next := (Nat.le_trans (Nat.le_add_right _ _) hlast).trans h.next
    last := .inl (Nat.le_refl _)
    first := fun _ => ⟨rfl, rfl⟩
    later := nofun
    state := nofun
    tail := ⟨[], rfl⟩ }

theorem writeData (h : Underway got checked g buf) (hstate : g.state = .data)
    (hfirst : g.firstpacket = false) {data rest : List UInt8} (hbuf : buf = data ++ rest)
    (hlen : g.received + data.length ≤ g.nextCheckpoint) :
    Underway got checked (g.writeData data) rest := by
  obtain ⟨hsize, hnext⟩ := h.later hfirst
  have hfile : g.file.write data = { g.file with backing := g.file.backing.write data } := by
    simp only [DownloadFile.write, h.sparse]
  have hbacking : (g.writeData data).file.backing = g.file.backing.write data := by
    change (g.file.write data).backing = _
    rw [hfile]
  have hstored : (g.writeData data).file.backing.stored =
      g.file.backing.stored.write g.received data := by
    rw [hbacking, BackingFile.write, h.pos]
  have hbytes : (g.writeData data).file.backing.stored.bytes =
      g.file.backing.stored.bytes.write g.received data := by
    rw [hstored]
    rfl
  have hstart : g.received + data.length - (g.hashed ++ data).length =
      g.received - g.hashed.length := by
    rw [List.length_append]
    omega
  have hshort := h.short
  exact {
    sparse := by
      change (g.file.write data).sparse = none
      rw [hfile]
      exact h.sparse
    pos := by
      rw [hbacking, writeData_received, ← h.pos]
      rfl
    short := by
      simp only [writeData_hashed, writeData_received, List.length_append]
      omega
    size := by
      rw [hstored, writeData_received]
      by_cases hdata : data = []
      · rw [hdata, StoredFile.write_nil]
        exact h.size
      · exact StoredFile.le_size_write _ _ hdata
    hashed := by
      rw [writeData_received, writeData_hashed, hstart, hbytes, List.length_append,
        ByteStore.read_add, ByteStore.read_write_of_disjoint (.inl (by omega)), h.hashed,
        Nat.sub_add_cancel hshort, ByteStore.read_write]
    covered := by
      rw [writeData_received, writeData_hashed, hstart, hbytes]
      exact h.covered.congr fun i hi => ByteStore.write_of_lt (by omega)
    next := hlen
    last := by
      refine h.last.elim (fun hlast => .inl ?_) fun hlast => absurd (hlast.1.symm.trans hstate) nofun
      rw [writeData_lastCheckpoint, writeData_hashed, writeData_received, List.length_append]
      omega
    first := fun hf => absurd (hfirst.symm.trans hf) nofun
    later := by
      intro _
      refine ⟨?_, hnext⟩
      rw [hstored, StoredFile.write]
      dsimp only
      split
      · exact hsize
      · exact Nat.max_le.mpr ⟨hsize, hlen.trans hnext⟩
    state := h.state
    tail := by
      obtain ⟨before, hgot⟩ := h.tail
      refine ⟨before, ?_⟩
      simp only [hashPart, hstate] at hgot
      simp [hashPart, GetFile.writeData, hstate, hgot, hbuf] }

theorem segment_checked (h : Underway got checked g buf) :
    CheckedUpTo g.file.backing.stored.bytes (checked ++ [g.segment]) g.received := by
  have hshort := h.short
  have hextend := @CheckedUpTo.extend _ _ _ g.hashed h.covered h.hashed
  rw [Nat.sub_add_cancel hshort] at hextend
  exact hextend

theorem last_le (h : Underway got checked g buf) : g.lastCheckpoint ≤ g.received :=
  h.last.elim (fun hlast => (Nat.le_add_right _ _).trans hlast) fun hlast => hlast.2.le

theorem all_checked (h : Underway got checked g buf) (hfirst : g.firstpacket = false)
    (hend : g.filesize ≤ g.received) :
    CheckedUpTo g.file.backing.stored.bytes (checked ++ [g.segment]) g.file.backing.stored.size :=
  h.segment_checked.mono ((h.later hfirst).1.trans hend)

theorem next_segment (h : Underway got checked g buf)
    (hashR : Nat) (hashBuf : List UInt8) {lastCheckpoint nextCheckpoint : Nat} {rest : List UInt8}
    (hlast : lastCheckpoint ≤ g.received) (hnext : g.received ≤ nextCheckpoint)
    (hfirst : g.firstpacket = false) (hle : nextCheckpoint ≤ g.filesize)
    (hrest : ∃ before, got = before ++ rest) :
    Underway got (checked ++ [g.segment])
      { g with lastCheckpoint, nextCheckpoint, hashed := [], state := .data, hashR, hashBuf }
      rest where
  sparse := h.sparse
  pos := h.pos
  short := Nat.zero_le _
  size := h.size
  hashed := rfl
  covered := h.segment_checked
  next := hnext
  last := .inl hlast
  first := fun hf => absurd (hfirst.symm.trans hf) nofun
  later := fun hf => ⟨(h.later hf).1, hle⟩
  state := nofun
  tail := hrest

end Underway

theorem takeFilesize_safe (h : Underway got checked g buf) (hfirst : g.firstpacket = true)
    {filesize : Nat} (hsize : g.file.backing.stored.size ≤ announcedSize filesize)
    {rest : List UInt8} (hrest : ∃ before, buf = before ++ rest) :
    StageSafe got checked (fun g _ => g.firstpacket = false)
      (takeFilesize false true { g with firstpacket := false } filesize 0 rest) := by
  obtain ⟨hstate, hhashed⟩ := h.first hfirst
  have hcovered : CheckedUpTo g.file.backing.stored.bytes checked g.received := by
    have hcovered := h.covered
    rwa [hhashed, List.length_nil, Nat.sub_zero] at hcovered
  unfold takeFilesize
  dsimp only
  split
  · rename_i hnone
    have hzero : filesize = 0 := by simpa using hnone
    rw [hzero] at hsize
    exact fun _ => hcovered.mono (hsize.trans (Nat.zero_le _))
  · split
    · rename_i hsame
      have hsame : filesize < 2 ^ 63 ∧ filesize = g.received := by simpa using hsame
      intro _
      refine hcovered.mono (hsize.trans ?_)
      rw [announcedSize, if_neg (by omega)]
      exact hsame.2.le
    · rw [if_neg (by simp)]
      obtain ⟨before, rfl⟩ := hrest
      obtain ⟨front, htail⟩ := h.tail
      have hle := h.size.trans hsize
      have hnext := h.next
      exact ⟨{
        sparse := h.sparse
        pos := h.pos
        short := h.short
        size := h.size
        hashed := h.hashed
        covered := h.covered
        next := by
          change g.received ≤ min g.nextCheckpoint (announcedSize filesize)
          exact Nat.le_min.mpr ⟨hnext, hle⟩
        last := h.last
        first := nofun
        later := fun _ => ⟨hsize, Nat.min_le_right _ _⟩
        state := h.state
        tail := by
          refine ⟨front ++ (g.hashed ++ (g.hashPart ++ before)), ?_⟩
          rw [htail]
          simp [hashPart, hstate, hhashed] }, rfl⟩

/-- A header is taken, if the file does not become smaller by it. -/
theorem takeHeader_safe (h : Underway got checked g buf)
    (hannounced : ∀ filesize holes, g.announced buf = some (filesize, holes) →
      holes = 0 ∧ g.file.backing.stored.size ≤ announcedSize filesize) :
    StageSafe got checked (fun g buf => buf ≠ [] → g.firstpacket = false)
      (g.takeHeader false true buf) := by
  unfold takeHeader
  split
  · rename_i hfirst
    cases buf with
    | nil => exact ⟨h, fun hne => absurd rfl hne⟩
    | cons pid rest =>
      dsimp only
      split
      · exact nofun
      · split
        · exact nofun
        · split
          · exact nofun
          · cases hreq : headerSize pid with
            | none => exact nofun
            | some reqSize =>
              dsimp only
              split
              · exact h
              · rename_i hlong
                have hall : reqSize ≤ rest.length + 1 := Nat.not_lt.mp hlong
                obtain ⟨hholes, hsize⟩ := hannounced _ _ (by
                  simp only [announced, hreq]
                  exact if_pos ⟨hfirst, hall⟩)
                rw [hholes]
                exact (takeFilesize_safe h hfirst hsize ⟨(pid :: rest).take reqSize,
                  (List.take_append_drop _ _).symm⟩).imp fun _ _ hfirst _ => hfirst
  · rename_i hfirst
    exact ⟨h, fun _ => Bool.eq_false_iff.mpr hfirst⟩

theorem delivered_segment {before rest hash : List UInt8} (hsame : (c.md5 g.hashed).toList = hash)
    (hgot : got = before ++ (g.hashed ++ (hash ++ rest))) : Delivered c got [g.segment] := by
  intro segment hmem
  rw [List.mem_singleton.mp hmem]
  refine ⟨before, rest, ?_⟩
  rw [hgot, ← hsame]
  simp [GetFile.segment]

theorem takeHash_done (h : Underway got checked g buf) (hhash : g.state = .hash) (hne : buf ≠ [])
    (hfirst : g.firstpacket = false) (hall : g.hashR ≤ buf.length) :
    StageSafe got (checked ++ g.hashChecks c buf)
        (fun g buf => buf ≠ [] → g.firstpacket = false ∧ g.state = .data) (g.takeHash c buf) ∧ Delivered c got (g.hashChecks c buf) := by
  obtain ⟨before, hgot⟩ := h.tail
  simp only [hashPart, hhash, if_true] at hgot
  have htaken : g.takeHash c buf = hashDone c { g with
      hashBuf := g.hashBuf ++ buf.take g.hashR, hashR := 0 } (buf.drop g.hashR) := by
    unfold takeHash
    rw [if_pos (by simp [hhash, hne])]
    dsimp only
    rw [Nat.min_eq_right hall, Nat.sub_self, if_pos rfl]
  rw [htaken, hashDone]
  dsimp only
  by_cases hsame : (c.md5 g.hashed).toList = g.hashBuf ++ buf.take g.hashR
  · have hchecks : g.hashChecks c buf = [g.segment] := by
      unfold hashChecks
      rw [if_pos ⟨hhash, hne, hall, hsame⟩]
    have hsplit : got = before ++ (g.hashed ++ ((g.hashBuf ++ buf.take g.hashR) ++
        buf.drop g.hashR)) := by
      rw [hgot, List.append_assoc, List.take_append_drop]
    rw [hchecks, if_neg (not_not.mpr hsame)]
    refine ⟨?_, delivered_segment hsame hsplit⟩
    split
    · rename_i hend
      exact fun _ => h.all_checked hfirst hend
    · refine ⟨h.next_segment _ _ h.last_le h.next hfirst (h.later hfirst).2
        ⟨before ++ (g.hashed ++ (g.hashBuf ++ buf.take g.hashR)), ?_⟩, fun _ => ⟨hfirst, rfl⟩⟩
      rw [hsplit]
      simp
  · have hchecks : g.hashChecks c buf = [] := by
      unfold hashChecks
      rw [if_neg fun hcheck => hsame hcheck.2.2.2]
    rw [hchecks, if_pos hsame]
    exact ⟨nofun, nofun⟩

theorem takeHash_safe (h : Underway got checked g buf)
    (hfirst : buf ≠ [] → g.firstpacket = false) :
    StageSafe got (checked ++ g.hashChecks c buf)
        (fun g buf => buf ≠ [] → g.firstpacket = false ∧ g.state = .data) (g.takeHash c buf) ∧ Delivered c got (g.hashChecks c buf) := by
  by_cases hstate : g.state = .hash ∧ buf ≠ []
  · obtain ⟨hhash, hne⟩ := hstate
    have hfirst := hfirst hne
    obtain ⟨before, hgot⟩ := h.tail
    simp only [hashPart, hhash, if_true] at hgot
    by_cases hall : g.hashR ≤ buf.length
    · exact takeHash_done h hhash hne hfirst hall
    · have hmin : min buf.length g.hashR = buf.length := Nat.min_eq_left (Nat.le_of_not_le hall)
      have hchecks : g.hashChecks c buf = [] := by
        unfold hashChecks
        rw [if_neg fun hcheck => hall hcheck.2.2.1]
      have htaken : g.takeHash c buf = .ok ({ g with
          hashBuf := g.hashBuf ++ buf, hashR := g.hashR - buf.length }, []) := by
        unfold takeHash
        rw [if_pos (by simp [hhash, hne])]
        dsimp only
        rw [hmin, List.take_length, List.drop_length, if_neg (by omega)]
      rw [hchecks, htaken, List.append_nil]
      refine ⟨⟨{ h with tail := ⟨before, ?_⟩ }, fun hnil => absurd rfl hnil⟩, nofun⟩
      simp [hashPart, hhash, hgot]
  · have hchecks : g.hashChecks c buf = [] := by
      unfold hashChecks
      rw [if_neg fun hall => hstate ⟨hall.1, hall.2.1⟩]
    have htaken : g.takeHash c buf = .ok (g, buf) := by
      unfold takeHash
      rw [if_neg]
      simpa using hstate
    rw [hchecks, htaken, List.append_nil]
    refine ⟨⟨h, fun hne => ⟨hfirst hne, ?_⟩⟩, nofun⟩
    cases hstate' : g.state with
    | data => rfl
    | hash => exact absurd ⟨hstate', hne⟩ hstate
    | sparseExtends => exact absurd hstate' h.state

theorem takeCheckpoint_safe {rest : List UInt8} (h : Underway got checked g rest)
    (hstate : g.state = .data) (hfirst : g.firstpacket = false)
    (hreceived : g.received = g.nextCheckpoint) :
    StageSafe got (checked ++ g.checkpointChecks c rest)
        (fun g' rest' => g'.state = .data ∧ g'.firstpacket = false ∧ rest'.length < rest.length)
        (g.takeCheckpoint c rest) ∧ Delivered c got (g.checkpointChecks c rest) := by
  obtain ⟨before, hgot⟩ := h.tail
  simp only [hashPart, hstate] at hgot
  have hfile := (h.later hfirst).2
  have hnext : g.received ≤ min (g.nextCheckpoint + c.checkpointDist) g.filesize :=
    Nat.le_min.mpr ⟨by omega, hreceived ▸ hfile⟩
  have hlast : (if g.nextCheckpoint < g.filesize then g.nextCheckpoint else g.lastCheckpoint) ≤
      g.received := by
    split
    · exact hreceived.ge
    · exact h.last_le
  unfold takeCheckpoint passCheckpoint checkpointChecks
  dsimp only
  by_cases hshort : rest.length < 16
  · rw [if_pos hshort, if_neg (by omega), List.append_nil]
    refine ⟨{ h with
      next := hnext
      last := ?_
      first := fun hf => absurd (hfirst.symm.trans hf) nofun
      later := fun hf => ⟨(h.later hf).1, Nat.min_le_right _ _⟩
      state := nofun
      tail := ⟨before, ?_⟩ }, nofun⟩
    · dsimp only
      split
      · exact .inr ⟨rfl, hreceived.symm⟩
      · exact .inl (h.last.resolve_right fun hlast => absurd (hlast.1.symm.trans hstate) nofun)
    · rw [hgot]
      simp [hashPart]
  · by_cases hsame : (c.md5 g.hashed).toList = rest.take 16
    · rw [if_neg hshort, if_neg (not_not.mpr hsame), if_pos ⟨Nat.le_of_not_lt hshort, hsame⟩]
      have hsplit : got = before ++ (g.hashed ++ (rest.take 16 ++ rest.drop 16)) := by
        rw [hgot, List.take_append_drop]
        rfl
      have hsegment : Underway got (checked ++ [g.segment]) _ (rest.drop 16) :=
        h.next_segment g.hashR g.hashBuf hlast hnext hfirst
          (Nat.min_le_right _ _) ⟨before ++ (g.hashed ++ rest.take 16), by simp [hsplit]⟩
      rw [← hstate] at hsegment
      refine ⟨?_, delivered_segment hsame hsplit⟩
      split
      · split
        · refine ⟨hsegment, hstate, hfirst, ?_⟩
          rw [List.length_drop]
          omega
        · rename_i hmore
          rw [List.drop_eq_nil_of_le (Nat.le_of_not_lt hmore)] at hsegment
          exact hsegment
      · rename_i hend
        exact fun _ => h.all_checked hfirst (Nat.le_of_not_lt hend)
    · rw [if_neg hshort, if_pos hsame, if_neg fun hcheck => hsame hcheck.2]
      exact ⟨nofun, nofun⟩

/-- The data and the hashes in the buffer. Induction on the turns of the loop. -/
theorem takeData_safe {turns : Nat} (h : Underway got checked g buf) (hstate : g.state = .data)
    (hfirst : g.firstpacket = false) (hturns : buf.length ≤ turns) :
    RoundSafe got (checked ++ dataChecks c turns g buf) (takeData c true turns g buf) ∧
      Delivered c got (dataChecks c turns g buf) := by
  induction turns generalizing g buf checked with
  | zero =>
    have hnil : buf = [] := List.eq_nil_of_length_eq_zero (Nat.le_zero.mp hturns)
    rw [dataChecks, takeData, List.append_nil]
    exact ⟨hnil ▸ h, fun _ hmem => by cases hmem⟩
  | succ turns ih =>
    have hlen : g.received + (buf.take (g.nextCheckpoint - g.received)).length ≤
        g.nextCheckpoint := by
      have hnext := h.next
      rw [List.length_take]
      omega
    have hdata := h.writeData hstate hfirst
      (List.take_append_drop (g.nextCheckpoint - g.received) buf).symm hlen
    by_cases hcheckpoint : (g.writeData (buf.take (g.nextCheckpoint - g.received))).received =
        g.nextCheckpoint
    · obtain ⟨hsafe, hdelivered⟩ := takeCheckpoint_safe (c := c) hdata hstate hfirst hcheckpoint
      simp only [takeData, dataChecks, writeData_nextCheckpoint, hcheckpoint, true_and, if_true]
      cases htaken : (g.writeData (buf.take (g.nextCheckpoint - g.received))).takeCheckpoint c
          (buf.drop (g.nextCheckpoint - g.received)) with
      | error round =>
        rw [htaken] at hsafe
        rw [List.append_nil]
        exact ⟨hsafe, hdelivered⟩
      | ok taken =>
        rw [htaken] at hsafe
        obtain ⟨hunderway, hstate', hfirst', hshorter⟩ := hsafe
        rw [List.length_drop] at hshorter
        obtain ⟨hround, hmore⟩ := ih hunderway hstate' hfirst' (by omega)
        rw [← List.append_assoc]
        exact ⟨hround, fun segment hmem =>
          (List.mem_append.mp hmem).elim (hdelivered segment) (hmore segment)⟩
    · have hlt : g.received + (buf.take (g.nextCheckpoint - g.received)).length <
          g.nextCheckpoint := Nat.lt_of_le_of_ne hlen hcheckpoint
      have hend : ¬ (g.writeData (buf.take (g.nextCheckpoint - g.received))).filesize ≤
          (g.writeData (buf.take (g.nextCheckpoint - g.received))).received := by
        have hinside := (h.later hfirst).2
        rw [writeData_filesize, writeData_received]
        omega
      have hused : buf.drop (g.nextCheckpoint - g.received) = [] := by
        rw [List.length_take] at hlt
        exact List.drop_eq_nil_of_le (by omega)
      rw [hused] at hdata
      simp only [takeData, dataChecks, writeData_nextCheckpoint, hcheckpoint, false_and, if_false,
        hend, List.append_nil]
      exact ⟨hdata, fun _ hmem => by cases hmem⟩

theorem receive_of_header {taken : GetFile × List UInt8}
    (hheader : g.takeHeader false true buf = .ok taken) (hstate : taken.1.state ≠ .sparseExtends) :
    g.receive c false true buf = (match taken.1.takeHash c taken.2 with
        | .error round => round
        | .ok (g, buf) =>
          if g.state = .data && !buf.isEmpty then takeData c true buf.length g buf else .more g []) ∧
      g.checks c buf = taken.1.hashChecks c taken.2 ++ (match taken.1.takeHash c taken.2 with
        | .error _ => []
        | .ok (g, buf) =>
          if g.state = .data && !buf.isEmpty then dataChecks c buf.length g buf else []) := by
  have hsparse : taken.1.takeSparseExtends c taken.2 = .ok (taken.1, taken.2) :=
    takeSparseExtends_of_state hstate
  constructor
  · unfold receive
    rw [hheader]
    change (match ((taken.1.takeSparseExtends c taken.2).bind fun p => p.1.takeHash c p.2) with
      | .error round => round
      | .ok (g, buf) => _) = _
    rw [hsparse]
    rfl
  · unfold checks
    rw [hheader]
    change (match taken.1.takeSparseExtends c taken.2 with
      | .error _ => []
      | .ok (g, buf) => _) = _
    generalize taken.1.takeSparseExtends c taken.2 = extends' at hsparse ⊢
    subst hsparse
    rfl

theorem receive_safe (h : Underway got checked g buf)
    (hannounced : ∀ filesize holes, g.announced buf = some (filesize, holes) →
      holes = 0 ∧ g.file.backing.stored.size ≤ announcedSize filesize) :
    RoundSafe got (checked ++ g.checks c buf) (g.receive c false true buf) ∧
      Delivered c got (g.checks c buf) := by
  have hheader := takeHeader_safe h hannounced
  cases htaken : g.takeHeader false true buf with
  | error round =>
    have hchecks : g.checks c buf = [] := by
      simp only [checks, htaken]
      rfl
    have hround : g.receive c false true buf = round := by
      simp only [receive, htaken]
      rfl
    rw [htaken] at hheader
    rw [hchecks, hround, List.append_nil]
    exact ⟨hheader, fun _ hmem => by cases hmem⟩
  | ok taken =>
    rw [htaken] at hheader
    obtain ⟨hunderway, hfirst⟩ := hheader
    obtain ⟨hhash, hdelivered⟩ := takeHash_safe (c := c) hunderway hfirst
    obtain ⟨hreceive, hchecks⟩ := receive_of_header (c := c) htaken hunderway.state
    rw [hreceive, hchecks]
    cases htaken' : taken.1.takeHash c taken.2 with
    | error round =>
      rw [htaken'] at hhash
      rw [List.append_nil]
      exact ⟨hhash, hdelivered⟩
    | ok taken' =>
      rw [htaken'] at hhash
      obtain ⟨hunderway', hfirst'⟩ := hhash
      dsimp only
      split
      · rename_i hdata
        have hdata : taken'.1.state = .data ∧ taken'.2 ≠ [] := by simpa using hdata
        obtain ⟨hround, hmore⟩ := takeData_safe (c := c) hunderway' hdata.1
          (hfirst' hdata.2).1 (Nat.le_refl _)
        rw [← List.append_assoc]
        exact ⟨hround, fun segment hmem =>
          (List.mem_append.mp hmem).elim (hdelivered segment) (hmore segment)⟩
      · rename_i hdata
        rw [List.append_nil]
        have hnil : taken'.2 = [] := by
          by_contra hne
          exact hdata (by simp [(hfirst' hne).2, hne])
        rw [hnil] at hunderway'
        exact ⟨hunderway', hdelivered⟩

end GetFile

namespace Transfer

open GetFile

variable {c : SegmentHash} {s s' : Transfer} {e : TransferEvent} {data : List UInt8}

/-- What is kept while a transfer is resumed where it may be. -/
structure Safe (c : SegmentHash) (s : Transfer) : Prop where
  running : s.rc = none → Underway s.got s.checked s.g s.dlBuf
  success : s.rc = some .success →
    CheckedUpTo s.g.file.backing.stored.bytes s.checked s.g.file.backing.stored.size
  delivered : ∀ segment ∈ s.checked, ∃ got ∈ s.got :: s.earlier,
    segment.data ++ (c.md5 segment.data).toList <:+: got

theorem safe_start (c : SegmentHash) (stored : StoredFile) (dlBuf : List UInt8) :
    Safe c (start c stored dlBuf) where
  running := fun _ => Underway.start c stored dlBuf
  success := nofun
  delivered := nofun

theorem Safe.delivered_append (h : Safe c s) {more : List CheckedSegment}
    (hmore : Delivered c (s.got ++ data) more) :
    ∀ segment ∈ s.checked ++ more, ∃ got ∈ (s.got ++ data) :: s.earlier,
      segment.data ++ (c.md5 segment.data).toList <:+: got := by
  intro segment hmem
  rcases List.mem_append.mp hmem with hold | hnew
  · obtain ⟨got, hgot, hpart⟩ := h.delivered segment hold
    rcases List.mem_cons.mp hgot with rfl | hearlier
    · exact ⟨_, List.mem_cons_self, hpart.trans (List.prefix_append _ data).isInfix⟩
    · exact ⟨got, List.mem_cons_of_mem _ hearlier, hpart⟩
  · exact ⟨_, List.mem_cons_self, hmore segment hnew⟩

theorem Safe.round (h : Safe c s) (hrc : s.rc = none)
    (hannounced : ∀ filesize holes, s.g.announced (s.dlBuf ++ data) = some (filesize, holes) →
      holes = 0 ∧ s.g.file.backing.stored.size ≤ announcedSize filesize) :
    Safe c (s.round c data) := by
  have hunderway := h.running hrc
  have hmore : Underway (s.got ++ data) s.checked s.g (s.dlBuf ++ data) := by
    obtain ⟨before, hgot⟩ := hunderway.tail
    exact { hunderway with tail := ⟨before, by simp [hgot]⟩ }
  obtain ⟨hround, hdelivered⟩ := receive_safe (c := c) hmore hannounced
  have hall := h.delivered_append hdelivered
  unfold Transfer.round
  dsimp only
  cases hreceive : s.g.receive c false true (s.dlBuf ++ data) with
  | more g kept =>
    rw [hreceive] at hround
    exact ⟨fun _ => hround, fun hsuccess => absurd (hrc.symm.trans hsuccess) nofun, hall⟩
  | returned rc g left =>
    rw [hreceive] at hround
    exact ⟨nofun, fun hsuccess => hround (Option.some.inj hsuccess), hall⟩
  | reconnected rc g =>
    rw [hreceive] at hround
    exact ⟨nofun, fun hsuccess => absurd (Option.some.inj hsuccess) hround, hall⟩

theorem Safe.step (h : Safe c s) (hok : s.Resumable e) (hstep : s.step c e = some s') :
    Safe c s' := by
  unfold Transfer.step at hstep
  split at hstep
  · cases hstep
  · rename_i hrc
    have hrc : s.rc = none := by simpa using hrc
    cases e with
    | receive isReadable data =>
      have hround : s' = s.round c data := by
        simp only [Transfer.receive] at hstep
        split at hstep
        · split at hstep
          · cases hstep
          · exact (Option.some.inj hstep).symm
        · split at hstep
          · rename_i hnil
            rw [hnil]
            exact (Option.some.inj hstep).symm
          · cases hstep
      rw [hround]
      refine h.round hrc fun filesize holes hannounced => ?_
      simp only [Resumable, hannounced] at hok
      exact hok
    | reconnect =>
      cases hstep
      refine ⟨fun _ => (h.running hrc).reconnect hok,
        fun hsuccess => absurd (hrc.symm.trans hsuccess) nofun, ?_⟩
      intro segment hmem
      obtain ⟨got, hgot, hpart⟩ := h.delivered segment hmem
      exact ⟨got, List.mem_cons_of_mem _ hgot, hpart⟩
    | timeout =>
      cases hstep
      exact ⟨nofun, nofun, h.delivered⟩

/-- A transfer that is resumed only where it may be accepts verified data only. -/
theorem verified_of_resumable {stored : StoredFile} {dlBuf : List UInt8}
    {es : List TransferEvent} (hok : Guarded (step c) Resumable (start c stored dlBuf) es)
    (hrun : run (step c) (start c stored dlBuf) es = some s) (hrc : s.rc = some .success) :
    ∀ i < s.g.file.backing.stored.size, s.Verified c i := by
  have hsafe : Safe c s := guarded_run_invariant (fun _ _ _ h hok hstep => h.step hok hstep)
    (safe_start c stored dlBuf) hok hrun
  intro i hi
  obtain ⟨segment, hmem, hle, hbyte⟩ := hsafe.success hrc i hi
  exact ⟨segment, hmem, hle, hbyte, hsafe.delivered segment hmem⟩

/-- Two segments, with a connection that is lost within the second one. -/
theorem verified_of_resumable_oneLoss :
    ∃ s, run (step ⟨fun data => Vector.replicate 16 data.sum, 2, by decide⟩)
        (start ⟨fun data => Vector.replicate 16 data.sum, 2, by decide⟩ .empty [])
        [.receive true (idFilesize :: ByteOrder.littleEndian 8 4), .receive true [1, 2],
          .receive true (List.replicate 16 3), .receive true [3], .reconnect,
          .receive true (idFilesize :: (ByteOrder.littleEndian 8 4 ++ [3])),
          .receive true (4 :: List.replicate 16 7)] = some s ∧
      s.g.file.backing.stored.size = 4 ∧
      ∀ i < s.g.file.backing.stored.size,
        s.Verified ⟨fun data => Vector.replicate 16 data.sum, 2, by decide⟩ i := by
  have hsome : (run (step ⟨fun data => Vector.replicate 16 data.sum, 2, by decide⟩)
      (start ⟨fun data => Vector.replicate 16 data.sum, 2, by decide⟩ .empty [])
      [.receive true (idFilesize :: ByteOrder.littleEndian 8 4), .receive true [1, 2],
        .receive true (List.replicate 16 3), .receive true [3], .reconnect,
        .receive true (idFilesize :: (ByteOrder.littleEndian 8 4 ++ [3])),
        .receive true (4 :: List.replicate 16 7)]).any (fun s =>
          decide (s.rc = some .success ∧ s.g.file.backing.stored.size = 4)) = true := by
    decide +kernel
  obtain ⟨s, hrun, hend⟩ := (Option.any_eq_true _ _).mp hsome
  obtain ⟨hrc, hsize⟩ := of_decide_eq_true hend
  exact ⟨s, hrun, hsize, verified_of_resumable (by decide +kernel) hrun hrc⟩

section Unverified

variable (c : SegmentHash)

def header (size : Nat) : List UInt8 := idFilesize :: ByteOrder.littleEndian 8 size

/-- One byte more than a segment, all of them zero. The connection is lost before the hash of the
segment. -/
def lossyEvents : List TransferEvent :=
  .receive true (header (c.checkpointDist + 1)) ::
    (List.replicate c.checkpointDist (.receive true [0]) ++
      [.reconnect,
        .receive true (header (c.checkpointDist + 1) ++ ([0] ++ (c.md5 [0]).toList))])

variable {c} {size : Nat} {rest : List UInt8} {g g' : GetFile}

theorem receive_data {buf : List UInt8} (hheader : g.takeHeader false true buf = .ok (g', rest))
    (hstate : g'.state = .data) :
    g.receive c false true buf = (if rest = [] then .more g' []
        else takeData c true rest.length g' rest) ∧
      g.checks c buf = if rest = [] then [] else dataChecks c rest.length g' rest := by
  obtain ⟨hreceive, hchecks⟩ := receive_of_header (c := c) hheader (by simp [hstate])
  have hhash : g'.takeHash c rest = .ok (g', rest) := by
    unfold takeHash
    simp [hstate]
  have hnone : g'.hashChecks c rest = [] := by
    unfold hashChecks
    simp [hstate]
  rw [hreceive, hchecks, hhash, hnone]
  cases rest with
  | nil => simp
  | cons b rest => simp [hstate]

theorem receive_byte (hfirst : g.firstpacket = false) (hstate : g.state = .data)
    (hlt : g.received < g.nextCheckpoint) (hle : g.nextCheckpoint ≤ g.filesize) (b : UInt8) :
    g.receive c false true [b] = (if g.received + 1 = g.nextCheckpoint then
        .more { (g.writeData [b]).passCheckpoint c with
          state := .hash, hashBuf := [], hashR := 16 } []
      else .more (g.writeData [b]) []) ∧ g.checks c [b] = [] := by
  obtain ⟨hreceive, hchecks⟩ := receive_data (c := c) (takeHeader_of_later hfirst) hstate
  obtain ⟨n, hn⟩ : ∃ n, g.nextCheckpoint - g.received = n + 1 := ⟨_, (Nat.sub_add_cancel (by omega)).symm⟩
  rw [hreceive, hchecks]
  simp only [List.cons_ne_nil, if_false, List.length_singleton, takeData, dataChecks, hn,
    List.take_succ_cons, List.take_nil, List.drop_succ_cons, List.drop_nil, writeData_received,
    writeData_nextCheckpoint, writeData_filesize]
  by_cases hend : g.received + 1 = g.nextCheckpoint
  · simp only [hend, and_self, if_true]
    exact ⟨rfl, rfl⟩
  · have hmore : ¬ g.filesize ≤ g.received + 1 := by omega
    simp only [hend, hmore, false_and, if_false, and_self]

/-- Some bytes of the first segment are there. -/
structure Midway (c : SegmentHash) (k : Nat) (s : Transfer) : Prop where
  rc : s.rc = none
  dlBuf : s.dlBuf = []
  checked : s.checked = []
  first : s.g.firstpacket = false
  state : s.g.state = .data
  received : s.g.received = k
  next : s.g.nextCheckpoint = c.checkpointDist
  filesize : s.g.filesize = c.checkpointDist + 1
  sparse : s.g.file.sparse = none

theorem step_receive (hrc : s.rc = none) (hdlBuf : s.dlBuf = []) (hdata : data ≠ [])
    (hlen : data.length ≤ Pipeline.bufferSize) :
    s.step c (.receive true data) = some (s.round c data) := by
  have hfits : ¬ (data = [] ∨ Pipeline.bufferSize < s.dlBuf.length + data.length) := by
    simp [hdata, hdlBuf, hlen]
  simp only [Transfer.step, hrc, Option.isSome_none, Bool.false_eq_true, if_false, Transfer.receive,
    mustRead, Bool.true_or, if_true, if_neg hfits]

theorem round_more (hdlBuf : s.dlBuf = []) (hreceive : s.g.receive c false true data = .more g [])
    (hchecks : s.g.checks c data = []) :
    s.round c data = { s with g, dlBuf := [], got := s.got ++ data } := by
  simp only [Transfer.round, hdlBuf, List.nil_append, hreceive, hchecks, List.append_nil]

theorem round_returned (hdlBuf : s.dlBuf = []) {rc : ErrorCode} {left : List UInt8}
    (hreceive : s.g.receive c false true data = .returned rc g left) :
    s.round c data = { s with
      g, dlBuf := left, got := s.got ++ data, rc := some rc
      checked := s.checked ++ s.g.checks c data } := by
  simp only [Transfer.round, hdlBuf, List.nil_append, hreceive]

theorem Midway.step {k : Nat} (h : Midway c k s) (hlt : k + 1 < c.checkpointDist) :
    ∃ s', s.step c (.receive true [0]) = some s' ∧ Midway c (k + 1) s' := by
  have hreceived := h.received
  have hnext := h.next
  have hfilesize := h.filesize
  obtain ⟨hreceive, hchecks⟩ := receive_byte (c := c) h.first h.state (by omega) (by omega) 0
  rw [if_neg (by omega)] at hreceive
  refine ⟨_, step_receive h.rc h.dlBuf (by simp) (by simp [Pipeline.bufferSize]), ?_⟩
  rw [round_more h.dlBuf hreceive hchecks]
  have hsparse : (s.g.writeData [0]).file.sparse = none := by
    change (s.g.file.write [0]).sparse = none
    simp only [DownloadFile.write, h.sparse]
  exact ⟨h.rc, rfl, h.checked, h.first, h.state, congrArg (· + 1) hreceived, hnext, hfilesize, hsparse⟩

theorem Midway.run {n k : Nat} (h : Midway c k s) (hlt : k + n < c.checkpointDist) :
    ∃ s', run (Transfer.step c) s (List.replicate n (.receive true [0])) = some s' ∧
      Midway c (k + n) s' := by
  induction n generalizing k s with
  | zero => exact ⟨s, rfl, h⟩
  | succ n ih =>
    obtain ⟨s', hstep, hs'⟩ := h.step (by omega)
    obtain ⟨t, hrun, ht⟩ := ih hs' (by omega)
    refine ⟨t, ?_, by rwa [Nat.add_right_comm] at ht⟩
    rw [List.replicate_succ, TransitionSystem.run, hstep]
    exact hrun

/-- The segment is there and its hash is not. -/
structure AtHash (c : SegmentHash) (s : Transfer) : Prop where
  rc : s.rc = none
  checked : s.checked = []
  last : s.g.lastCheckpoint = c.checkpointDist
  next : s.g.nextCheckpoint = c.checkpointDist + 1
  sparse : s.g.file.sparse = none

theorem Midway.last {k : Nat} (h : Midway c k s) (hk : k + 1 = c.checkpointDist) :
    ∃ s', s.step c (.receive true [0]) = some s' ∧ AtHash c s' := by
  have hreceived := h.received
  have hnext := h.next
  have hfilesize := h.filesize
  obtain ⟨hreceive, hchecks⟩ := receive_byte (c := c) h.first h.state (by omega) (by omega) 0
  rw [if_pos (by omega)] at hreceive
  refine ⟨_, step_receive h.rc h.dlBuf (by simp) (by simp [Pipeline.bufferSize]), ?_⟩
  rw [round_more h.dlBuf hreceive hchecks]
  have hsparse : (s.g.writeData [0]).file.sparse = none := by
    change (s.g.file.write [0]).sparse = none
    simp only [DownloadFile.write, h.sparse]
  have hinside : s.g.nextCheckpoint < s.g.filesize := by omega
  refine ⟨h.rc, h.checked, ?_, ?_, hsparse⟩
  · exact (if_pos hinside).trans hnext
  · change min (s.g.nextCheckpoint + c.checkpointDist) s.g.filesize = _
    have hpos := c.pos
    omega

theorem start_midway (hdist : c.checkpointDist + 1 < 2 ^ 63) :
    ∃ s', (start c .empty []).step c (.receive true (header (c.checkpointDist + 1))) = some s' ∧
      Midway c 0 s' := by
  have hheader : (GetFile.start c ⟨.empty, 0⟩).takeHeader false true
      (header (c.checkpointDist + 1) ++ []) = .ok ({ GetFile.start c ⟨.empty, 0⟩ with
        firstpacket := false, filesize := c.checkpointDist + 1
        nextCheckpoint := min c.checkpointDist (c.checkpointDist + 1) }, []) := by
    rw [header, takeHeader_filesize rfl hdist, takeFilesize_file (Nat.succ_pos _) hdist]
    rfl
  rw [List.append_nil] at hheader
  obtain ⟨hreceive, hchecks⟩ := receive_data (c := c) hheader rfl
  refine ⟨_, step_receive rfl rfl (by simp [header]) (by simp [header, Pipeline.bufferSize]), ?_⟩
  rw [round_more (s := start c .empty []) rfl hreceive hchecks]
  exact ⟨rfl, rfl, rfl, rfl, rfl, rfl, Nat.min_eq_left (Nat.le_succ _), rfl, rfl⟩

theorem takeData_last (hlt : g.received + 1 = g.nextCheckpoint)
    (hfilesize : g.nextCheckpoint = g.filesize) (hhashed : g.hashed = []) (b : UInt8) :
    ∃ g', takeData c true ([b] ++ (c.md5 [b]).toList).length g ([b] ++ (c.md5 [b]).toList) =
        .returned .success g' [] ∧
      dataChecks c ([b] ++ (c.md5 [b]).toList).length g ([b] ++ (c.md5 [b]).toList) =
        [⟨g.received, [b]⟩] ∧ g'.file = g.file.write [b] := by
  have hsum : (c.md5 [b]).toList.length = 16 := Vector.length_toList
  have hturns : ([b] ++ (c.md5 [b]).toList).length = 16 + 1 := by
    rw [List.length_append, hsum]
    rfl
  have htw : g.nextCheckpoint - g.received = 1 := by omega
  have hend : ¬ g.received + 1 < g.filesize := by omega
  have hall : (c.md5 [b]).toList.take 16 = (c.md5 [b]).toList := List.take_of_length_le hsum.le
  have hcheckpoint : (g.writeData [b]).takeCheckpoint c (c.md5 [b]).toList =
      .error (.returned .success { (g.writeData [b]).passCheckpoint c with hashed := [] } []) := by
    have hlong : ¬ (c.md5 [b]).toList.length < 16 := hsum.not_lt
    have hsame : ¬ (c.md5 ((g.writeData [b]).passCheckpoint c).hashed).toList ≠
        (c.md5 [b]).toList.take 16 := by
      change ¬ (c.md5 (g.hashed ++ [b])).toList ≠ _
      rw [hhashed, hall]
      exact not_not.mpr rfl
    have hdone : ¬ ((g.writeData [b]).passCheckpoint c).received <
        ((g.writeData [b]).passCheckpoint c).filesize := hend
    simp only [takeCheckpoint, if_neg hlong, if_neg hsame]
    rw [if_neg hdone, List.drop_eq_nil_of_le hsum.le]
  have hchecks : (g.writeData [b]).checkpointChecks c (c.md5 [b]).toList = [⟨g.received, [b]⟩] := by
    have hsame : 16 ≤ (c.md5 [b]).toList.length ∧
        (c.md5 (g.writeData [b]).hashed).toList = (c.md5 [b]).toList.take 16 := by
      rw [writeData_hashed, hhashed, hall]
      exact ⟨hsum.ge, rfl⟩
    rw [checkpointChecks, if_pos hsame, GetFile.segment, writeData_hashed, hhashed]
    rfl
  rw [hturns]
  simp only [takeData, dataChecks, htw, List.singleton_append, List.take_succ_cons, List.take_zero,
    List.drop_succ_cons, List.drop_zero, writeData_received, writeData_nextCheckpoint,
    List.length_singleton, hlt, and_self, if_true, hcheckpoint, hchecks, List.append_nil]
  exact ⟨_, rfl, trivial, rfl⟩

theorem AtHash.finish (hdist : c.checkpointDist + 1 < 2 ^ 63) (h : AtHash c s) :
    ∃ s', run (Transfer.step c) s [.reconnect, .receive true
        (header (c.checkpointDist + 1) ++ ([0] ++ (c.md5 [0]).toList))] = some s' ∧
      s'.rc = some .success ∧ 0 < s'.g.file.backing.stored.size ∧
        s'.checked = [⟨c.checkpointDist, [0]⟩] := by
  have hlast := h.last
  have hsum : (c.md5 [0]).toList.length = 16 := Vector.length_toList
  have hreconnect : s.step c .reconnect = some { s with
      g := s.g.reconnect true, dlBuf := [], got := [], earlier := s.got :: s.earlier } := by
    simp only [Transfer.step, h.rc, Option.isSome_none, Bool.false_eq_true, if_false]
  have hheader : (s.g.reconnect true).takeHeader false true
      (header (c.checkpointDist + 1) ++ ([0] ++ (c.md5 [0]).toList)) =
        .ok ({ s.g.reconnect true with
          firstpacket := false, filesize := c.checkpointDist + 1, numSparseExtends := 0
          nextCheckpoint := c.checkpointDist + 1 }, [0] ++ (c.md5 [0]).toList) := by
    have hreceived : (s.g.reconnect true).received < c.checkpointDist + 1 := by
      change s.g.lastCheckpoint < _
      omega
    have hnext : (s.g.reconnect true).nextCheckpoint = c.checkpointDist + 1 := h.next
    rw [header, takeHeader_filesize rfl hdist,
      takeFilesize_file (g := { s.g.reconnect true with firstpacket := false }) hreceived hdist]
    simp only [hnext, if_true, Nat.min_self]
  obtain ⟨hreceive, hchecks⟩ := receive_data (c := c) hheader rfl
  obtain ⟨g, hdata, hdataChecks, hfile⟩ := takeData_last (c := c) (g := { s.g.reconnect true with
    firstpacket := false, filesize := c.checkpointDist + 1, numSparseExtends := 0
    nextCheckpoint := c.checkpointDist + 1 }) (congrArg (· + 1) hlast) rfl rfl 0
  rw [if_neg (by simp), hdata] at hreceive
  rw [if_neg (by simp), hdataChecks] at hchecks
  have hstep := @step_receive { s with
      g := s.g.reconnect true, dlBuf := [], got := [], earlier := s.got :: s.earlier }
    (header (c.checkpointDist + 1) ++ ([0] ++ (c.md5 [0]).toList)) c h.rc rfl (by simp [header])
    (by simp [header, Pipeline.bufferSize])
  have hround := round_returned (c := c) (s := { s with
    g := s.g.reconnect true, dlBuf := [], got := [], earlier := s.got :: s.earlier }) rfl hreceive
  have hrun := run_trans (run_single hreconnect) (run_single (hstep.trans (congrArg some hround)))
  refine ⟨_, hrun, rfl, ?_, ?_⟩
  · have hseek : s.g.file.seek s.g.lastCheckpoint = { s.g.file with
        backing := s.g.file.backing.seek s.g.lastCheckpoint } := by
      simp only [DownloadFile.seek, h.sparse]
    have hwrite : g.file.backing.stored =
        s.g.file.backing.stored.write s.g.lastCheckpoint [0] := by
      rw [hfile]
      change ((s.g.file.seek s.g.lastCheckpoint).write [0]).backing.stored = _
      rw [hseek]
      simp only [DownloadFile.write, h.sparse]
      rfl
    change 0 < g.file.backing.stored.size
    have hle := StoredFile.le_size_write s.g.file.backing.stored s.g.lastCheckpoint
      (List.cons_ne_nil (0 : UInt8) [])
    rw [hwrite]
    exact Nat.lt_of_lt_of_le (Nat.succ_pos _) hle
  · change s.checked ++ _ = _
    rw [hchecks, h.checked]
    exact congrArg (fun n => [CheckedSegment.mk n [0]]) hlast

/-- The hash of the first segment is never received, and the file is taken for good. -/
theorem run_lossyEvents (hdist : c.checkpointDist + 1 < 2 ^ 63) :
    ∃ s, run (Transfer.step c) (start c .empty []) (lossyEvents c) = some s ∧
      s.rc = some .success ∧ 0 < s.g.file.backing.stored.size ∧
        s.checked = [⟨c.checkpointDist, [0]⟩] := by
  obtain ⟨n, hn⟩ : ∃ n, c.checkpointDist = n + 1 := ⟨_, (Nat.sub_add_cancel c.pos).symm⟩
  obtain ⟨s, hstep, hs⟩ := start_midway hdist
  obtain ⟨t, hrun, ht⟩ := hs.run (n := n) (by omega)
  obtain ⟨u, hlast, hu⟩ := ht.last (by omega)
  obtain ⟨v, hend, hv⟩ := hu.finish hdist
  refine ⟨v, ?_, hv⟩
  rw [lossyEvents, TransitionSystem.run, hstep, Option.bind_some]
  have hbytes : run (Transfer.step c) s (List.replicate c.checkpointDist (.receive true [0])) =
      some u := by
    rw [hn, List.replicate_succ']
    exact run_trans hrun (run_single hlast)
  exact run_trans hbytes hend

/-- A connection that is lost between a segment and its hash. -/
theorem segment_without_hash_is_accepted :
    ¬ ∃ md5 : List UInt8 → Vector UInt8 16, ∀ es s,
      run (Transfer.step (.ofMd5 md5)) (start (.ofMd5 md5) .empty []) es = some s →
        s.rc = some .success → ∀ i < s.g.file.backing.stored.size, s.Verified (.ofMd5 md5) i := by
  rintro ⟨md5, h⟩
  have hdist : (SegmentHash.ofMd5 md5).checkpointDist + 1 < 2 ^ 63 := by
    change 512 * 1024 + 1 < 2 ^ 63
    decide
  obtain ⟨s, hrun, hrc, hsize, hchecked⟩ := run_lossyEvents hdist
  obtain ⟨segment, hmem, hle, -⟩ := h _ s hrun hrc 0 hsize
  rw [hchecked, List.mem_singleton] at hmem
  subst hmem
  exact absurd hle (Nat.not_le.mpr (SegmentHash.ofMd5 md5).pos)

end Unverified

end Transfer

end UrBackup
