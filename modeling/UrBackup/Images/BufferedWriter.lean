import UrBackup.Images.BufferFile
import UrBackup.Lib.Run

/-! The threads that write an image: the one that takes what `writeBuffer` is called with, and the one
that reads the buffer files if there are any. Each turn of a thread is a step. -/
namespace UrBackup

open TransitionSystem

/-- The thread that reads the buffer files. -/
structure ServerFileBufferWriter where
  fbQueue : List Bytes
  exit : Bool
  exitNow : Bool
  blockbuf : BlockBuf
  reading : Option Reading
  finished : Bool

/-- How far the thread of a `ServerVHDWriter` has come after its last item. -/
inductive WriterPhase where
  | running
  | lastFile
  | finished
deriving DecidableEq

/-- The threads, with the calls of `writeBuffer` still to come and those of `writeVHD` so far. -/
structure ServerVHDWriter where
  filebuffer : Bool
  coming : List BufferVHDItem
  exit : Bool
  hasError : Bool
  tqueue : List BufferVHDItem
  currfile : Bytes
  currfileSize : Nat
  phase : WriterPhase
  filebufWriter : ServerFileBufferWriter
  written : List BufferVHDItem

inductive VHDWriterEvent where
  | writeBuffer
  | doExit
  /-- An item is taken from the queue; how large a buffer file may get, and the bytes of the header
  that nobody sets. -/
  | item (filebufLim : Nat) (padding : Padding)
  | lastItem
  | doExitFileWriter
  | openFile
  /-- A turn of the loop over a file, and what new memory holds. -/
  | readFile (fresh : ByteStore)
  | exitFileWriter

namespace ServerVHDWriter

def init (filebuffer : Bool) (blocksize : UInt32) (mem : ByteStore) (items : List BufferVHDItem) :
    ServerVHDWriter where
  filebuffer := filebuffer
  coming := items
  exit := false
  hasError := false
  tqueue := []
  currfile := []
  currfileSize := 0
  phase := .running
  filebufWriter := ⟨[], false, false, .new mem blocksize, none, false⟩
  written := []

variable (w : ServerVHDWriter)

def writeVHD (item : BufferVHDItem) : ServerVHDWriter := { w with written := w.written ++ [item] }

def writeRetry (buf : Bytes) (bsize : UInt32) : ServerVHDWriter :=
  { w with currfile := w.currfile ++ buf.take bsize.toNat }

def handOver : ServerVHDWriter :=
  { w with filebufWriter := { w.filebufWriter with
      fbQueue := w.filebufWriter.fbQueue ++ [w.currfile] } }

def bufferItem (filebufLim : Nat) (padding : Padding) (item : BufferVHDItem) : ServerVHDWriter :=
  let size := FileBufferVHDItem.size + (if item.buf.isSome then item.bsize.toNat else 0)
  let w := w.writeRetry (item.record padding) (UInt32.ofNat size)
  let w := { w with currfileSize := w.currfileSize + size }
  if filebufLim < w.currfileSize then { w.handOver with currfile := [], currfileSize := 0 } else w

def takeItem (filebufLim : Nat) (padding : Padding) : Option ServerVHDWriter :=
  match w.phase, w.tqueue with
  | .running, item :: tqueue =>
    let w := { w with tqueue }
    if w.hasError then some w
    else if w.filebuffer then some (w.bufferItem filebufLim padding item)
    else some (w.writeVHD item)
  | _, _ => none

def leave : Option ServerVHDWriter :=
  if w.phase = .running ∧ w.tqueue = [] ∧ w.exit = true then
    if w.filebuffer then some { w.handOver with phase := .lastFile }
    else some { w with phase := .finished }
  else none

def exitFileWriter : Option ServerVHDWriter :=
  if w.phase = .lastFile then
    some { w with phase := .finished, filebufWriter := { w.filebufWriter with exit := true } }
  else none

def openFile : Option ServerVHDWriter :=
  match w.filebufWriter.reading, w.filebufWriter.fbQueue with
  | none, content :: fbQueue =>
    if w.filebuffer ∧ w.filebufWriter.exitNow = false then
      some { w with filebufWriter := { w.filebufWriter with
        fbQueue, reading := some (.start content) } }
    else none
  | _, _ => none

def freeFile : ServerVHDWriter :=
  { w with filebufWriter := { w.filebufWriter with reading := none } }

def readFile (fresh : ByteStore) : Option ServerVHDWriter :=
  match w.filebufWriter.reading with
  | none => none
  | some r =>
    if r.tmp.size ≤ r.tpos ∨ w.filebufWriter.exitNow = true ∨ w.hasError = true then
      some w.freeFile
    else
      match r.turn fresh w.filebufWriter.blockbuf with
      | none => some { w.freeFile with
          hasError := true, filebufWriter := { w.freeFile.filebufWriter with exitNow := true } }
      | some (item, blockbuf, r) => some { w.writeVHD item with
          filebufWriter := { w.filebufWriter with blockbuf, reading := some r } }

def finishFileWriter : Option ServerVHDWriter :=
  let fw := w.filebufWriter
  if w.filebuffer ∧ fw.finished = false ∧ fw.reading.isNone ∧
      (fw.exitNow = true ∨ fw.fbQueue = [] ∧ fw.exit = true) then
    some { w with filebufWriter := { fw with finished := true } }
  else none

def step : VHDWriterEvent → Option ServerVHDWriter
  | .writeBuffer =>
    match w.coming with
    | item :: coming => some { w with coming, tqueue := w.tqueue ++ [item] }
    | [] => none
  | .doExit => if w.coming = [] ∧ w.exit = false then some { w with exit := true } else none
  | .item filebufLim padding => w.takeItem filebufLim padding
  | .lastItem => w.leave
  | .doExitFileWriter => w.exitFileWriter
  | .openFile => w.openFile
  | .readFile fresh => w.readFile fresh
  | .exitFileWriter => w.finishFileWriter

/-- The thread has ended, after the one that reads the files if there is one. -/
def Ended : Prop := w.phase = .finished ∧ (w.filebuffer = true → w.filebufWriter.finished = true)

end ServerVHDWriter

def WriterPhase.load : WriterPhase → Nat
  | .running => 8
  | .lastFile => 1
  | .finished => 0

/-- Where the items are that were given to `writeBuffer` and not yet to `writeVHD`: in the file that
is read, in the files that wait, and in the current one. -/
structure BufferedRecords where
  rest : Records
  files : List Records
  current : Records

namespace BufferedRecords

def items (p : BufferedRecords) : List BufferVHDItem :=
  p.rest.items ++ (p.files.flatMap Records.items ++ p.current.items)

/-- How many steps there can be at most, counted by what each item and each file still takes. -/
def load (p : BufferedRecords) (w : ServerVHDWriter) : Nat :=
  8 * w.coming.length + 7 * w.tqueue.length + (!w.exit).toNat + w.phase.load + p.current.length +
    (p.files.map fun f => f.length + 3).sum + p.rest.length +
    2 * w.filebufWriter.reading.isSome.toNat + (!w.filebufWriter.finished).toNat

end BufferedRecords

/-- No item is lost and none comes before another one. -/
structure Holds (items : List BufferVHDItem) (p : BufferedRecords) (w : ServerVHDWriter) : Prop where
  calls : w.written ++ (p.items ++ (w.tqueue ++ w.coming)) = items
  reading : match w.filebufWriter.reading with
    | none => p.rest = []
    | some r => r.Tracks p.rest
  fbQueue : w.filebufWriter.fbQueue = p.files.map Records.bytes
  currfile : w.phase = .running → w.currfile = p.current.bytes
  noError : w.hasError = false
  noExitNow : w.filebufWriter.exitNow = false
  exit : w.exit = true → w.coming = []
  left : w.phase ≠ .running → w.tqueue = [] ∧ w.exit = true ∧ p.current = []
  direct : w.filebuffer = false → p.items = [] ∧ w.phase ≠ .lastFile
  fileExit : w.filebufWriter.exit = true ↔ w.phase = .finished ∧ w.filebuffer = true
  finished : w.filebufWriter.finished = true →
    w.filebufWriter.exit = true ∧ p.rest = [] ∧ p.files = []

namespace Holds

variable {items : List BufferVHDItem} {p : BufferedRecords} {w w' : ServerVHDWriter}

theorem init (filebuffer : Bool) (blocksize : UInt32) (mem : ByteStore)
    (items : List BufferVHDItem) :
    Holds items ⟨[], [], []⟩ (.init filebuffer blocksize mem items) where
  calls := rfl
  reading := rfl
  fbQueue := rfl
  currfile := fun _ => rfl
  noError := rfl
  noExitNow := rfl
  exit := nofun
  left := fun h => absurd rfl h
  direct := fun _ => ⟨rfl, nofun⟩
  fileExit := ⟨nofun, nofun⟩
  finished := nofun

theorem fits (hitems : ∀ i ∈ items, i.Fits) (h : Holds items p w) {i : BufferVHDItem}
    (hi : i ∈ p.items ∨ i ∈ w.tqueue) : i.Fits := by
  apply hitems
  rw [← h.calls]
  simp only [List.mem_append]
  tauto

theorem written (h : Holds items p w) (hended : w.Ended) : w.written = items := by
  obtain ⟨hphase, hfinished⟩ := hended
  obtain ⟨hqueue, hexit, hcurrent⟩ := h.left (by simp [hphase])
  have hitems : p.items = [] := by
    cases hbuffer : w.filebuffer with
    | false => exact (h.direct hbuffer).1
    | true =>
      obtain ⟨_, hrest, hfiles⟩ := h.finished (hfinished hbuffer)
      simp [BufferedRecords.items, hrest, hfiles, hcurrent, Records.items]
  have hcalls := h.calls
  rw [hitems, hqueue, h.exit hexit] at hcalls
  simpa using hcalls

/-- What a step does to the items and to what is still to be done. -/
def Next (items : List BufferVHDItem) (p : BufferedRecords) (w w' : ServerVHDWriter) : Prop :=
  ∃ p', Holds items p' w' ∧ p'.load w' < p.load w

theorem writeBuffer (h : Holds items p w) {item : BufferVHDItem} {coming : List BufferVHDItem}
    (hcoming : w.coming = item :: coming) :
    Next items p w { w with coming, tqueue := w.tqueue ++ [item] } := by
  have hexit : w.exit ≠ true := fun hexit => by simp [h.exit hexit] at hcoming
  refine ⟨p, { h with calls := ?_, exit := fun hw => absurd hw hexit, left := ?_ }, ?_⟩
  · have hcalls := h.calls
    rw [hcoming] at hcalls
    simpa using hcalls
  · intro hphase
    exact absurd (h.left hphase).2.1 hexit
  · simp only [BufferedRecords.load, hcoming, List.length_append, List.length_cons, List.length_nil]
    omega

theorem doExit (h : Holds items p w) (hcoming : w.coming = []) (hexit : w.exit = false) :
    Next items p w { w with exit := true } := by
  refine ⟨p, { h with exit := fun _ => hcoming, left := ?_ }, ?_⟩
  · intro hphase
    exact absurd (h.left hphase).2.1 (by simp [hexit])
  · simp only [BufferedRecords.load, hexit]
    simp

theorem take_record {item : BufferVHDItem} (hfits : item.Fits) (padding : Padding) :
    (item.record padding).take (UInt32.ofNat (FileBufferVHDItem.size +
      (if item.buf.isSome then item.bsize.toNat else 0))).toNat = item.record padding := by
  apply List.take_of_length_le
  rw [BufferVHDItem.record, List.length_append, FileBufferVHDItem.bytes_length]
  cases hbuf : item.buf with
  | none => exact Nat.le_refl _
  | some buf =>
    obtain ⟨hlength, hlt⟩ := hfits buf hbuf
    rw [Option.isSome_some, if_pos rfl, Option.getD_some, hlength, UInt32.toNat_ofNat',
      Nat.mod_eq_of_lt (by rw [FileBufferVHDItem.size]; omega)]

theorem bufferItem (h : Holds items p w) {item : BufferVHDItem} {tqueue : List BufferVHDItem}
    (hfits : item.Fits) (hphase : w.phase = .running) (hqueue : w.tqueue = item :: tqueue)
    (hbuffer : w.filebuffer = true) (filebufLim : Nat) (padding : Padding) :
    Next items p w (({ w with tqueue } : ServerVHDWriter).bufferItem filebufLim padding item) := by
  have hcalls := h.calls
  rw [hqueue] at hcalls
  have hcurrent := (Records.bytes_concat p.current item padding).symm
  rw [← h.currfile hphase] at hcurrent
  have hitems : ((p.current ++ [(item, padding)] : Records)).items = p.current.items ++ [item] := by
    simp [Records.items]
  unfold ServerVHDWriter.bufferItem
  dsimp only [ServerVHDWriter.writeRetry, ServerVHDWriter.handOver]
  rw [take_record hfits padding]
  generalize FileBufferVHDItem.size + (if item.buf.isSome then item.bsize.toNat else 0) = size
  split
  · refine ⟨⟨p.rest, p.files ++ [p.current ++ [(item, padding)]], []⟩, { h with
      calls := ?_, fbQueue := ?_, currfile := fun _ => rfl,
      left := fun hrun => absurd hphase hrun,
      direct := fun hdirect => absurd (hdirect.symm.trans hbuffer) (by decide),
      finished := ?_ }, ?_⟩
    · simpa [BufferedRecords.items, hitems, Records.items] using hcalls
    · simp [h.fbQueue, hcurrent]
    · intro hfinished
      have hexit := h.fileExit.mp (h.finished hfinished).1
      rw [hphase] at hexit
      cases hexit.1
    · simp [BufferedRecords.load, hphase, hqueue]
      omega
  · refine ⟨⟨p.rest, p.files, p.current ++ [(item, padding)]⟩, { h with
      calls := ?_, currfile := fun _ => hcurrent,
      left := fun hrun => absurd hphase hrun,
      direct := fun hdirect => absurd (hdirect.symm.trans hbuffer) (by decide) }, ?_⟩
    · simpa [BufferedRecords.items, hitems] using hcalls
    · simp [BufferedRecords.load, hphase, hqueue]
      omega

theorem takeItem (hitems : ∀ i ∈ items, i.Fits) (h : Holds items p w) {filebufLim : Nat}
    {padding : Padding} (hstep : w.takeItem filebufLim padding = some w') :
    Next items p w w' := by
  unfold ServerVHDWriter.takeItem at hstep
  split at hstep
  · rename_i item tqueue hphase hqueue
    have hfits := h.fits hitems (.inr (hqueue ▸ List.mem_cons_self))
    have hcalls := h.calls
    rw [hqueue] at hcalls
    dsimp only at hstep
    rw [if_neg (by simp [h.noError])] at hstep
    split at hstep
    · rename_i hbuffer
      cases hstep
      exact h.bufferItem hfits hphase hqueue hbuffer filebufLim padding
    · rename_i hbuffer
      cases hstep
      have hdirect := (h.direct (Bool.eq_false_iff.mpr hbuffer)).1
      refine ⟨p, { h with calls := ?_, left := fun hrun => absurd hphase hrun }, ?_⟩
      · rw [hdirect] at hcalls ⊢
        simpa [ServerVHDWriter.writeVHD] using hcalls
      · simp [BufferedRecords.load, ServerVHDWriter.writeVHD, hqueue]
  · cases hstep

theorem leave (h : Holds items p w) (hstep : w.leave = some w') : Next items p w w' := by
  unfold ServerVHDWriter.leave at hstep
  split at hstep
  · rename_i hlast
    obtain ⟨hphase, hqueue, hexit⟩ := hlast
    have hcalls := h.calls
    split at hstep
    · rename_i hbuffer
      cases hstep
      refine ⟨⟨p.rest, p.files ++ [p.current], []⟩, { h with
        calls := ?_, fbQueue := ?_, currfile := nofun, left := fun _ => ⟨hqueue, hexit, rfl⟩,
        direct := fun hdirect => absurd (hdirect.symm.trans hbuffer) (by decide),
        fileExit := ?_, finished := ?_ }, ?_⟩
      · simpa [BufferedRecords.items, Records.items, ServerVHDWriter.handOver] using hcalls
      · simp [ServerVHDWriter.handOver, h.fbQueue, h.currfile hphase]
      · refine ⟨fun hfile => ?_, fun hfile => nomatch hfile.1⟩
        have hfinished := (h.fileExit.mp hfile).1
        rw [hphase] at hfinished
        cases hfinished
      · intro hfinished
        have hfile := h.fileExit.mp (h.finished hfinished).1
        rw [hphase] at hfile
        cases hfile.1
      · simp [BufferedRecords.load, ServerVHDWriter.handOver, hphase, WriterPhase.load]
        omega
    · rename_i hbuffer
      cases hstep
      have hdirect := (h.direct (Bool.eq_false_iff.mpr hbuffer)).1
      simp only [BufferedRecords.items, List.append_eq_nil_iff] at hdirect
      refine ⟨p, { h with
        currfile := nofun, left := fun _ => ⟨hqueue, hexit, List.map_eq_nil_iff.mp hdirect.2.2⟩,
        direct := fun hfile => ⟨(h.direct hfile).1, nofun⟩,
        fileExit := ⟨fun hfile => ⟨rfl, (h.fileExit.mp hfile).2⟩, fun hfile => ?_⟩ }, ?_⟩
      · exact absurd hfile.2 hbuffer
      · simp [BufferedRecords.load, hphase, WriterPhase.load]
  · cases hstep

theorem exitFileWriter (h : Holds items p w) (hstep : w.exitFileWriter = some w') :
    Next items p w w' := by
  unfold ServerVHDWriter.exitFileWriter at hstep
  split at hstep
  · rename_i hphase
    cases hstep
    have hleft := h.left (by simp [hphase])
    have hbuffer : w.filebuffer = true := by
      by_contra hdirect
      exact (h.direct (Bool.eq_false_iff.mpr hdirect)).2 hphase
    refine ⟨p, { h with
      currfile := nofun, left := fun _ => hleft,
      direct := fun hdirect => absurd (hdirect.symm.trans hbuffer) (by decide),
      fileExit := ⟨fun _ => ⟨rfl, hbuffer⟩, fun _ => rfl⟩,
      finished := fun hfinished => ⟨rfl, (h.finished hfinished).2⟩ }, ?_⟩
    simp [BufferedRecords.load, hphase, WriterPhase.load]
  · cases hstep

theorem openFile (h : Holds items p w) (hstep : w.openFile = some w') : Next items p w w' := by
  unfold ServerVHDWriter.openFile at hstep
  split at hstep
  · rename_i content fbQueue hreading hqueue
    split at hstep
    · cases hstep
      have hrest : p.rest = [] := by simpa [hreading] using h.reading
      have hfiles := h.fbQueue
      rw [hqueue] at hfiles
      cases hp : p.files with
      | nil => simp [hp] at hfiles
      | cons file files =>
        rw [hp, List.map_cons, List.cons.injEq] at hfiles
        obtain ⟨rfl, rfl⟩ := hfiles
        have hcalls := h.calls
        refine ⟨⟨file, files, p.current⟩, { h with
          calls := ?_, reading := Reading.tracks_start file, fbQueue := rfl, direct := ?_,
          finished := ?_ }, ?_⟩
        · simpa [BufferedRecords.items, hrest, hp, Records.items] using hcalls
        · intro hdirect
          have hitems := h.direct hdirect
          simpa [BufferedRecords.items, hrest, hp, Records.items] using hitems
        · intro hfinished
          have hnil := (h.finished hfinished).2.2
          rw [hp] at hnil
          cases hnil
        · simp [BufferedRecords.load, hreading, hrest, hp]
          omega
    · cases hstep
  · cases hstep

theorem readFile (hitems : ∀ i ∈ items, i.Fits) (h : Holds items p w) {fresh : ByteStore}
    (hstep : w.readFile fresh = some w') : Next items p w w' := by
  unfold ServerVHDWriter.readFile at hstep
  split at hstep
  · cases hstep
  · rename_i r hreading
    have htracks : r.Tracks p.rest := by simpa [hreading] using h.reading
    have hcalls := h.calls
    cases hp : p.rest with
    | nil =>
      have hend : r.tmp.size ≤ r.tpos := by
        have hcontent := htracks.content
        rw [hp] at hcontent
        exact List.drop_eq_nil_iff.mp hcontent
      rw [if_pos (.inl hend)] at hstep
      cases hstep
      refine ⟨p, { h with reading := hp }, ?_⟩
      simp [BufferedRecords.load, ServerVHDWriter.freeFile, hreading]
    | cons record rest =>
      obtain ⟨item, padding⟩ := record
      rw [hp] at htracks
      have hmore : ¬ (r.tmp.size ≤ r.tpos ∨ w.filebufWriter.exitNow = true ∨ w.hasError = true) := by
        simp only [h.noExitNow, h.noError, Bool.false_eq_true, or_false]
        intro hend
        have hcontent := htracks.content
        rw [List.drop_eq_nil_of_le hend, Records.bytes_cons] at hcontent
        cases hcontent
      have hfits : item.Fits :=
        h.fits hitems (.inl (by simp [BufferedRecords.items, Records.items, hp]))
      obtain ⟨blockbuf, r', hturn, htracks'⟩ :=
        @Reading.turn_tracks fresh w.filebufWriter.blockbuf _ _ _ _ hfits htracks
      rw [if_neg hmore, hturn] at hstep
      cases hstep
      refine ⟨{ p with rest }, { h with
        calls := ?_, reading := htracks', direct := ?_, finished := ?_ }, ?_⟩
      · simpa [BufferedRecords.items, Records.items, hp, ServerVHDWriter.writeVHD] using hcalls
      · intro hdirect
        have hdirect := (h.direct hdirect).1
        simp [BufferedRecords.items, Records.items, hp] at hdirect
      · intro hfinished
        have hnil := (h.finished hfinished).2.1
        rw [hp] at hnil
        cases hnil
      · simp [BufferedRecords.load, ServerVHDWriter.writeVHD, hreading, hp]

theorem finishFileWriter (h : Holds items p w) (hstep : w.finishFileWriter = some w') :
    Next items p w w' := by
  unfold ServerVHDWriter.finishFileWriter at hstep
  dsimp only at hstep
  split at hstep
  · rename_i hend
    obtain ⟨_, hfinished, hreading, hexit⟩ := hend
    cases hstep
    rw [h.noExitNow] at hexit
    obtain ⟨hqueue, hexit⟩ := hexit.resolve_left (by decide)
    have hrest : p.rest = [] := by simpa [Option.isNone_iff_eq_none.mp hreading] using h.reading
    refine ⟨p, { h with finished := fun _ => ⟨hexit, hrest, ?_⟩ }, ?_⟩
    · exact List.map_eq_nil_iff.mp (h.fbQueue.symm.trans hqueue)
    · simp [BufferedRecords.load, hfinished]
  · cases hstep

theorem step (hitems : ∀ i ∈ items, i.Fits) (h : Holds items p w) {e : VHDWriterEvent}
    (hstep : w.step e = some w') : Next items p w w' := by
  cases e with
  | writeBuffer =>
    cases hcoming : w.coming with
    | nil =>
      simp only [ServerVHDWriter.step, hcoming] at hstep
      cases hstep
    | cons item coming =>
      simp only [ServerVHDWriter.step, hcoming] at hstep
      cases hstep
      exact h.writeBuffer hcoming
  | doExit =>
    simp only [ServerVHDWriter.step] at hstep
    split at hstep
    · rename_i hexit
      cases hstep
      exact h.doExit hexit.1 hexit.2
    · cases hstep
  | item filebufLim padding => exact h.takeItem hitems hstep
  | lastItem => exact h.leave hstep
  | doExitFileWriter => exact h.exitFileWriter hstep
  | openFile => exact h.openFile hstep
  | readFile fresh => exact h.readFile hitems hstep
  | exitFileWriter => exact h.finishFileWriter hstep

theorem run (hitems : ∀ i ∈ items, i.Fits) (h : Holds items p w) {es : List VHDWriterEvent}
    (hrun : run ServerVHDWriter.step w es = some w') : ∃ p', Holds items p' w' :=
  run_invariant (I := fun w => ∃ p, Holds items p w)
    (fun _ _ _ ⟨_, h⟩ hstep => (h.step hitems hstep).imp fun _ hnext => hnext.1) ⟨p, h⟩ hrun

theorem progress_items (hexit : w.exit = true) (hphase : w.phase ≠ .finished) :
    ∃ e w', w.step e = some w' := by
  cases hp : w.phase with
  | finished => exact absurd hp hphase
  | lastFile => exact ⟨.doExitFileWriter, _, if_pos hp⟩
  | running =>
    cases hqueue : w.tqueue with
    | nil =>
      refine ⟨.lastItem, ?_⟩
      simp only [ServerVHDWriter.step, ServerVHDWriter.leave, hp, hqueue, hexit, and_self, if_true]
      split
      · exact ⟨_, rfl⟩
      · exact ⟨_, rfl⟩
    | cons item tqueue =>
      refine ⟨.item 0 ⟨List.replicate 7 0, List.replicate 4 0, rfl, rfl⟩, ?_⟩
      simp only [ServerVHDWriter.step, ServerVHDWriter.takeItem, hp, hqueue]
      split
      · exact ⟨_, rfl⟩
      · split
        · exact ⟨_, rfl⟩
        · exact ⟨_, rfl⟩

theorem progress_files (h : Holds items p w) (hphase : w.phase = .finished)
    (hbuffer : w.filebuffer = true) (hfinished : w.filebufWriter.finished = false) :
    ∃ e w', w.step e = some w' := by
  cases hreading : w.filebufWriter.reading with
  | some r =>
    refine ⟨.readFile fun _ => 0, ?_⟩
    simp only [ServerVHDWriter.step, ServerVHDWriter.readFile, hreading]
    split
    · exact ⟨_, rfl⟩
    · split
      · exact ⟨_, rfl⟩
      · exact ⟨_, rfl⟩
  | none =>
    cases hqueue : w.filebufWriter.fbQueue with
    | cons content fbQueue =>
      refine ⟨.openFile, ?_⟩
      simp [ServerVHDWriter.step, ServerVHDWriter.openFile, hreading, hqueue, hbuffer,
        h.noExitNow]
    | nil =>
      refine ⟨.exitFileWriter, ?_⟩
      simp [ServerVHDWriter.step, ServerVHDWriter.finishFileWriter, hbuffer, hfinished, hreading,
        hqueue, h.fileExit.mpr ⟨hphase, hbuffer⟩]

theorem progress (h : Holds items p w) (hended : ¬ w.Ended) : ∃ e w', w.step e = some w' := by
  cases hcoming : w.coming with
  | cons item coming =>
    exact ⟨.writeBuffer, by simp only [ServerVHDWriter.step, hcoming]; exact ⟨_, rfl⟩⟩
  | nil =>
    cases hexit : w.exit with
    | false => exact ⟨.doExit, _, if_pos ⟨hcoming, hexit⟩⟩
    | true =>
      by_cases hphase : w.phase = .finished
      · have hopen : w.filebuffer = true ∧ w.filebufWriter.finished = false := by
          simpa [ServerVHDWriter.Ended, hphase] using hended
        exact h.progress_files hphase hopen.1 hopen.2
      · exact progress_items hexit hphase

/-- The threads come to their end. Induction on what is still to be done. -/
theorem ends (hitems : ∀ i ∈ items, i.Fits) (h : Holds items p w) :
    ∃ es w', TransitionSystem.run ServerVHDWriter.step w es = some w' ∧ w'.Ended := by
  induction hload : p.load w using Nat.strongRecOn generalizing p w with
  | ind n ih =>
    by_cases hended : w.Ended
    · exact ⟨[], w, rfl, hended⟩
    · obtain ⟨e, w', hstep⟩ := h.progress hended
      obtain ⟨p', h', hlt⟩ := h.step hitems hstep
      obtain ⟨es, t, hrun, ht⟩ := ih _ (hload ▸ hlt) h' rfl
      refine ⟨e :: es, t, ?_, ht⟩
      rw [TransitionSystem.run, hstep, Option.bind_some, hrun]

end Holds

/-- Writing through buffer files makes the calls that writing without them makes, in whatever order
the threads go on and however the items are split over the files. Both come to an end from
wherever they are. -/
theorem buffered_calls_eq_direct {items : List BufferVHDItem} (hitems : ∀ i ∈ items, i.Fits)
    (blocksize blocksize' : UInt32) (mem mem' : ByteStore) :
    (∀ es w, run ServerVHDWriter.step (.init true blocksize mem items) es = some w →
      ∀ es' w', run ServerVHDWriter.step (.init false blocksize' mem' items) es' = some w' →
        w.Ended → w'.Ended → w.written = w'.written) ∧
      ∀ filebuffer es w, run ServerVHDWriter.step (.init filebuffer blocksize mem items) es = some w →
        ∃ es' t, run ServerVHDWriter.step w es' = some t ∧ t.Ended ∧ t.written = items := by
  refine ⟨fun es w hrun es' w' hrun' hended hended' => ?_, fun filebuffer es w hrun => ?_⟩
  · obtain ⟨p, h⟩ := (Holds.init true blocksize mem items).run hitems hrun
    obtain ⟨p', h'⟩ := (Holds.init false blocksize' mem' items).run hitems hrun'
    rw [h.written hended, h'.written hended']
  · obtain ⟨p, h⟩ := (Holds.init filebuffer blocksize mem items).run hitems hrun
    obtain ⟨es', t, hrest, hended⟩ := h.ends hitems
    obtain ⟨p', h'⟩ := h.run hitems hrest
    exact ⟨es', t, hrest, hended, h'.written hended⟩

/-- Data and a trim, from the start of the threads. -/
theorem buffered_calls_eq_direct_dataAndTrim :
    ∃ es t, run ServerVHDWriter.step
        (.init true 4 (fun _ => 0) [⟨0, some [1, 2], 2⟩, ⟨2, none, 5⟩]) es = some t ∧
      t.Ended ∧ t.written = [⟨0, some [1, 2], 2⟩, ⟨2, none, 5⟩] := by
  refine (buffered_calls_eq_direct ?_ 4 4 (fun _ => 0) fun _ => 0).2 true [] _ rfl
  intro i hi buf hbuf
  rcases List.mem_pair.mp hi with rfl | rfl
  · cases hbuf
    decide
  · cases hbuf

end UrBackup
