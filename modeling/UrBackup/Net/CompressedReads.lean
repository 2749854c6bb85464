import Mathlib.Data.Prod.Lex
import UrBackup.Net.CompressedPipe

/-! When a read of a compressed connection into a string returns, for any decompressor. -/
namespace UrBackup

namespace Compressed

/-- A decompressor: with room for output a call reads some input or puts some out, of which a finite
input has only finitely many bytes, or needs more input, or is at the end of its stream, where it
stays, or fails, as do all calls from then on. -/
structure Inflater (σ : Type) where
  inflate : Inflate σ
  pending : σ → Bytes → Nat
  ended : σ → Bool
  failed : σ → Bool
  consumed_le : ∀ s input room, (inflate s input room).consumed ≤ input.length
  output_le : ∀ s input room, (inflate s input room).output.length ≤ room
  progress : ∀ s input room, 0 < room → (inflate s input room).rc = .ok →
    0 < (inflate s input room).consumed ∨ (inflate s input room).output ≠ []
  finite : ∀ s input room, 0 < room → (inflate s input room).rc = .ok →
    pending (inflate s input room).state (input.drop (inflate s input room).consumed) +
      (inflate s input room).output.length ≤ pending s input
  needsInput : ∀ s input room, 0 < room → (inflate s input room).rc = .bufError →
    (inflate s input room).consumed = input.length ∧ (inflate s input room).output.length < room
  ends : ∀ s input room, (inflate s input room).rc = .streamEnd →
    ended (inflate s input room).state = true
  fails : ∀ s input room, (inflate s input room).rc = .error →
    failed (inflate s input room).state = true
  staysEnded : ∀ s input room, 0 < room → ended s = true →
    (inflate s input room).rc = .streamEnd ∧ (inflate s input room).consumed = 0 ∧
      (inflate s input room).output = []
  staysFailed : ∀ s input room, 0 < room → failed s = true →
    (inflate s input room).rc = .error ∧ (inflate s input room).consumed = 0 ∧
      (inflate s input room).output = []

section Turns

variable {σ : Type} (d : Inflater σ)

/-- The decompressor has failed, or is at the end of its stream in front of more input. -/
def Dead (state : σ) (input : Bytes) : Prop :=
  d.failed state = true ∨ d.ended state = true ∧ input ≠ []

instance (state : σ) (input : Bytes) : Decidable (Dead d state input) := instDecidableOr

/-- The loop of `ProcessToString` is about to call a decompressor that cannot go on. -/
structure Stuck (r : StringRead σ) : Prop where
  phase : ∃ dataPos first, r.phase = .process dataPos true first ∧ dataPos ≤ r.ret.length ∧
    (StringLoop.mk r.conn.pipe r.ret dataPos true).avail < 2 ^ 32
  left : r.conn.pipe.inputBuffer ≠ []
  dead : Dead d r.conn.pipe.infState r.conn.pipe.nextIn

variable {d} {l : StringLoop σ}

theorem grown_length (h : l.dataPos ≤ l.ret.length) :
    l.grown.length = l.dataPos + l.avail ∧ outputIncrSize ≤ l.avail := by
  unfold StringLoop.avail StringLoop.grown
  split <;> simp only [List.length_append, List.length_replicate, outputIncrSize] at * <;> omega

theorem avail_le (h : l.ret.length ≤ l.dataPos) : l.avail ≤ outputIncrSize := by
  unfold StringLoop.avail StringLoop.grown
  split <;> simp only [List.length_append, List.length_replicate, outputIncrSize] at * <;> omega

theorem grown_eq (h : l.dataPos ≤ l.ret.length) (havail : 2 ^ 32 ≤ l.avail) : l.grown = l.ret := by
  unfold StringLoop.avail StringLoop.grown at *
  split at havail
  · simp only [List.length_append, List.length_replicate, outputIncrSize] at *
    omega
  · rename_i hroom
    exact if_neg hroom

theorem stringTurn_inr {l' : StringLoop σ} (hpos : l.dataPos ≤ l.ret.length)
    (h : stringTurn d.inflate l = .inr l') :
    l'.pipe = (processToBuffer d.inflate l.avail l.fromLast l.pipe).pipe ∧ l'.fromLast = true ∧
      l'.pipe.inputBuffer ≠ [] ∧ l'.dataPos ≤ l'.ret.length ∧
      (l'.pipe.availOut = 0 → l.avail ≤ outputMaxSize) ∧
      (l'.pipe.availOut ≠ 0 → l'.dataPos = l.dataPos ∧
        l'.ret.length = l.grown.length - l'.pipe.availOut) := by
  obtain ⟨hgrown, -⟩ := grown_length hpos
  let p := processToBuffer d.inflate l.avail l.fromLast l.pipe
  have houtput : p.output.length ≤ l.avail % 2 ^ 32 :=
    processToBuffer_output ▸ d.output_le _ _ _
  have havail : p.pipe.availOut = l.avail % 2 ^ 32 - p.output.length := by
    rw [processToBuffer_availOut, processToBuffer_output]
  have hmod := Nat.mod_le l.avail (2 ^ 32)
  have hput : (putAt l.grown l.dataPos p.output).length = l.grown.length :=
    length_putAt (by omega)
  unfold stringTurn at h
  simp only [show processToBuffer d.inflate l.avail l.fromLast l.pipe = p from rfl, hput] at h
  split_ifs at h with hout hbuffer hsize hbuffer'
  · obtain rfl := Sum.inr.inj h
    refine ⟨rfl, rfl, hbuffer, ?_, fun hzero => absurd hzero hout, fun _ => ⟨rfl, ?_⟩⟩
    · simp only [List.length_take, hput]
      omega
    · simp only [List.length_take, hput]
      omega
  · obtain rfl := Sum.inr.inj h
    refine ⟨rfl, rfl, hbuffer', ?_, fun _ => ?_, fun hne => absurd (not_not.mp hout) hne⟩
    · simp only [hput]
      omega
    · omega

/-- A decompressor that cannot go on does nothing, and reports it each time. -/
theorem Dead.reply {state : σ} {input : Bytes} {room : Nat} (h : Dead d state input)
    (hroom : 0 < room) : (d.inflate state input room).output = [] ∧
      (d.inflate state input room).consumed = 0 ∧
      ((d.inflate state input room).rc = .error ∨ input ≠ []) ∧
      Dead d (d.inflate state input room).state input := by
  cases h with
  | inl hfailed =>
    obtain ⟨hrc, hconsumed, houtput⟩ := d.staysFailed state input room hroom hfailed
    exact ⟨houtput, hconsumed, .inl hrc, .inl (d.fails _ _ _ hrc)⟩
  | inr hended =>
    obtain ⟨hrc, hconsumed, houtput⟩ := d.staysEnded state input room hroom hended.1
    exact ⟨houtput, hconsumed, .inr hended.2, .inr ⟨d.ends _ _ _ hrc, hended.2⟩⟩

theorem stringTurn_goesOn
    (hout : (processToBuffer d.inflate l.avail l.fromLast l.pipe).pipe.availOut ≠ 0)
    (hleft : (processToBuffer d.inflate l.avail l.fromLast l.pipe).pipe.inputBuffer ≠ []) :
    ∃ ret, stringTurn d.inflate l = .inr
      ⟨(processToBuffer d.inflate l.avail l.fromLast l.pipe).pipe, ret, l.dataPos, true⟩ := by
  unfold stringTurn
  simp only [if_pos hout, if_neg hleft]
  exact ⟨_, rfl⟩

variable {r : StringRead σ} {dataPos : Nat} {fromLast first : Bool}

theorem turn_stuck (hphase : r.phase = .process dataPos fromLast first)
    (hpos : dataPos ≤ r.ret.length) (hleft : r.conn.pipe.inputBuffer ≠ [])
    (havail : (StringLoop.mk r.conn.pipe r.ret dataPos fromLast).avail < 2 ^ 32)
    (hreply : let n := (StringLoop.mk r.conn.pipe r.ret dataPos fromLast).avail
      let reply := r.conn.pipe.reply d.inflate n fromLast
      let rest := (r.conn.pipe.input fromLast).drop reply.consumed
      reply.output = [] ∧ Dead d reply.state rest ∧ (reply.rc = .error ∨ rest ≠ [])) :
    ∃ r', StringRead.turn d.inflate r = .inr r' ∧ Stuck d r' := by
  let l : StringLoop σ := ⟨r.conn.pipe, r.ret, dataPos, fromLast⟩
  obtain ⟨houtput, hdead, hrc⟩ := hreply
  obtain ⟨hgrown, hincr⟩ := @grown_length _ l hpos
  have hnextIn : (processToBuffer d.inflate l.avail fromLast r.conn.pipe).pipe.nextIn =
      (r.conn.pipe.input fromLast).drop (r.conn.pipe.reply d.inflate l.avail fromLast).consumed :=
    processToBuffer_nextIn
  have hout : (processToBuffer d.inflate l.avail fromLast r.conn.pipe).pipe.availOut = l.avail := by
    rw [processToBuffer_availOut, houtput, Nat.mod_eq_of_lt havail]
    rfl
  have hsame : (processToBuffer d.inflate l.avail fromLast r.conn.pipe).pipe.inputBuffer =
      r.conn.pipe.inputBuffer := by
    rw [processToBuffer_inputBuffer, hnextIn]
    apply if_neg
    rintro ⟨hne, hnil, -⟩
    exact hrc.elim hne fun h => h hnil
  have hpositive : 0 < l.avail := lt_of_lt_of_le (by decide) hincr
  obtain ⟨ret, hturn⟩ := @stringTurn_goesOn _ d l (by rw [hout]; exact hpositive.ne')
    (by rw [hsame]; exact hleft)
  have hspec := stringTurn_inr hpos hturn
  obtain ⟨-, hlength⟩ := hspec.2.2.2.2.2 (by rw [hout]; exact hpositive.ne')
  refine ⟨{ r with
      conn := { r.conn with pipe := (processToBuffer d.inflate l.avail fromLast r.conn.pipe).pipe }
      ret := ret
      phase := .process dataPos true first }, ?_, ⟨dataPos, first, rfl, hspec.2.2.2.1, ?_⟩,
    hsame ▸ hleft, ?_⟩
  · simp only [StringRead.turn, hphase, hturn, l]
  · have hshort : ret.length ≤ dataPos := by
      simp only [hout, l] at hlength hgrown
      omega
    have hnext := @avail_le _ ⟨(processToBuffer d.inflate l.avail fromLast r.conn.pipe).pipe, ret,
      dataPos, true⟩ hshort
    exact lt_of_le_of_lt hnext (by decide)
  · rw [processToBuffer_infState, hnextIn]
    exact hdead

end Turns

section Measure

variable {σ : Type} (d : Inflater σ)

def stage (s : CompressedPipe2 σ) : Nat :=
  if Dead d s.infState s.nextIn then 0 else if d.ended s.infState then 1 else 2

def todo (l : StringLoop σ) : Nat :=
  if Dead d l.pipe.infState l.pipe.nextIn then l.ret.length
  else l.pipe.nextIn.length + d.pending l.pipe.infState l.pipe.nextIn

variable {d} {l l' : StringLoop σ}

theorem stage_of_dead {s : CompressedPipe2 σ} (h : Dead d s.infState s.nextIn) : stage d s = 0 :=
  if_pos h

theorem stage_le_one {s : CompressedPipe2 σ} (h : d.ended s.infState = true) : stage d s ≤ 1 := by
  unfold stage
  split
  · exact Nat.zero_le 1
  · exact Nat.le_refl 1

theorem inputBuffer_nil {bsize : Nat} {fromLast : Bool} {s : CompressedPipe2 σ}
    (hrc : (s.reply d.inflate bsize fromLast).rc ≠ .error)
    (hin : (s.reply d.inflate bsize fromLast).consumed = (s.input fromLast).length)
    (hout : (s.reply d.inflate bsize fromLast).output.length < bsize % 2 ^ 32) :
    (processToBuffer d.inflate bsize fromLast s).pipe.inputBuffer = [] := by
  rw [processToBuffer_inputBuffer, processToBuffer_nextIn, processToBuffer_availOut]
  refine if_pos ⟨hrc, ?_, by omega⟩
  rw [hin, List.drop_length]

theorem stringTurn_decreases (hpos : l.dataPos ≤ l.ret.length) (hlast : l.fromLast = true)
    (hdead : Dead d l.pipe.infState l.pipe.nextIn → 2 ^ 32 ≤ l.avail)
    (hturn : stringTurn d.inflate l = .inr l') :
    stage d l'.pipe < stage d l.pipe ∨
      stage d l'.pipe = stage d l.pipe ∧ todo d l' < todo d l := by
  obtain ⟨hpipe, -, hleft, -, hfull, hroom⟩ := stringTurn_inr hpos hturn
  rw [hlast] at hpipe
  obtain ⟨hgrown, hincr⟩ := grown_length hpos
  let reply := d.inflate l.pipe.infState l.pipe.nextIn (l.avail % 2 ^ 32)
  have hstate : l'.pipe.infState = reply.state := hpipe ▸ processToBuffer_infState
  have hnextIn : l'.pipe.nextIn = l.pipe.nextIn.drop reply.consumed :=
    hpipe ▸ processToBuffer_nextIn
  have hout : l'.pipe.availOut = l.avail % 2 ^ 32 - reply.output.length :=
    hpipe ▸ processToBuffer_availOut
  have hread : ∀ _ : reply.rc ≠ .error, reply.consumed = l.pipe.nextIn.length →
      ¬ reply.output.length < l.avail % 2 ^ 32 := fun hrc hin hlt =>
    hleft (hpipe ▸ inputBuffer_nil hrc hin hlt)
  have hpositive : 0 < l.avail % 2 ^ 32 := by
    apply Nat.pos_of_ne_zero
    intro hzero
    have hsmall := hfull (by omega)
    simp only [outputIncrSize, outputMaxSize] at hincr hsmall
    omega
  by_cases hd : Dead d l.pipe.infState l.pipe.nextIn
  · -- nothing comes any more, but the string was too long for the room
    obtain ⟨houtput, hconsumed, -, hd'⟩ := hd.reply hpositive
    have hd'' : Dead d l'.pipe.infState l'.pipe.nextIn := by
      rw [hstate, hnextIn, hconsumed]
      exact hd'
    have hrest : l'.pipe.availOut = l.avail % 2 ^ 32 := by
      rw [hout, houtput]
      rfl
    have hlong := hdead hd
    obtain ⟨-, hlength⟩ := hroom (by omega)
    rw [grown_eq hpos hlong] at hlength hgrown
    refine .inr ⟨(stage_of_dead hd'').trans (stage_of_dead hd).symm, ?_⟩
    rw [todo, if_pos hd'', todo, if_pos hd]
    omega
  · by_cases hended : d.ended l.pipe.infState = true
    · obtain ⟨hrc, hconsumed, houtput⟩ := d.staysEnded _ l.pipe.nextIn _ hpositive hended
      have hnil : l.pipe.nextIn = [] := by
        by_contra hne
        exact hd (.inr ⟨hended, hne⟩)
      refine absurd ?_ (hread (by rw [hrc]; decide) (by rw [hconsumed, hnil]; rfl))
      rw [houtput]
      exact hpositive
    · have hstage : stage d l.pipe = 2 := by rw [stage, if_neg hd, if_neg hended]
      cases hrc : reply.rc with
      | streamEnd =>
        have hone := @stage_le_one _ d l'.pipe (hstate ▸ d.ends _ _ _ hrc)
        exact .inl (by omega)
      | error =>
        have hzero := @stage_of_dead _ d l'.pipe (.inl (hstate ▸ d.fails _ _ _ hrc))
        exact .inl (by omega)
      | bufError =>
        obtain ⟨hin, hlt⟩ := d.needsInput _ l.pipe.nextIn _ hpositive hrc
        exact absurd hlt (hread (by rw [hrc]; decide) hin)
      | ok =>
        by_cases hlower : stage d l'.pipe < 2
        · exact .inl (by omega)
        · have hd' : ¬ Dead d l'.pipe.infState l'.pipe.nextIn := fun h =>
            hlower (by rw [stage_of_dead h]; decide)
          have hle : stage d l'.pipe ≤ 2 := by
            unfold stage
            split_ifs <;> decide
          refine .inr ⟨by omega, ?_⟩
          have hprogress := d.progress _ l.pipe.nextIn _ hpositive hrc
          have hfinite := d.finite _ l.pipe.nextIn _ hpositive hrc
          have hconsumed := d.consumed_le l.pipe.infState l.pipe.nextIn (l.avail % 2 ^ 32)
          rw [← List.length_pos_iff] at hprogress
          rw [todo, if_neg hd', todo, if_neg hd, hstate, hnextIn, List.length_drop]
          simp only [reply] at *
          omega

end Measure

section Returns

variable {σ : Type} (d : Inflater σ)

def phaseRank : StringPhase → Nat
  | .receive => 0
  | .process _ true _ => 1
  | .process _ false _ => 2

/-- What the turns of a read use up, first of all the bytes that the connection has still to give. -/
def readMeasure (r : StringRead σ) : Nat ×ₗ Nat ×ₗ Nat ×ₗ Nat :=
  toLex (r.conn.cs.flatten.length, toLex (phaseRank r.phase,
    toLex (stage d r.conn.pipe, todo d ⟨r.conn.pipe, r.ret, 0, true⟩)))

/-- In the loop of `ProcessToString` the data end in the string, and the buffer is in use. -/
def InLoop (r : StringRead σ) : Prop :=
  ∀ dataPos fromLast first, r.phase = .process dataPos fromLast first →
    dataPos ≤ r.ret.length ∧ r.conn.pipe.inputBuffer ≠ []

variable {d} {r r' : StringRead σ}

theorem inLoop_start (conn : Conn σ) (ret : Bytes) (timeout : Timeout) :
    InLoop (StringRead.start conn ret timeout) := by
  intro dataPos fromLast first h
  unfold StringRead.start at h ⊢
  split_ifs at h with hleft
  cases h
  exact ⟨Nat.zero_le _, hleft⟩

theorem afterProcess_inr {first : Bool} (h : r.afterProcess first = .inr r') :
    r'.phase = .receive ∧ r'.conn.cs = r.conn.cs := by
  unfold StringRead.afterProcess at h
  split_ifs at h with hret hfirst
  · obtain rfl := Sum.inr.inj h
    exact ⟨rfl, Conn.growInput_cs r.conn⟩
  · split at h
    · cases h
    · obtain rfl := Sum.inr.inj h
      exact ⟨rfl, rfl⟩
    · cases h
    · obtain rfl := Sum.inr.inj h
      exact ⟨rfl, rfl⟩

theorem turn_decreases (hr : InLoop r) (hstuck : ¬ Stuck d r)
    (hturn : StringRead.turn d.inflate r = .inr r') :
    InLoop r' ∧ readMeasure d r' < readMeasure d r := by
  unfold StringRead.turn at hturn
  split at hturn
  · rename_i dataPos fromLast first hphase
    obtain ⟨hpos, hleft⟩ := hr dataPos fromLast first hphase
    split at hturn
    · -- `ProcessToString` is done
      obtain ⟨hreceive, hcs⟩ := afterProcess_inr hturn
      refine ⟨fun _ _ _ h => (StringPhase.noConfusion (hreceive.symm.trans h)), ?_⟩
      rw [readMeasure, readMeasure, hcs, hreceive, hphase, Prod.Lex.toLex_lt_toLex]
      refine .inr ⟨rfl, ?_⟩
      rw [Prod.Lex.toLex_lt_toLex]
      cases fromLast
      · exact .inl Nat.zero_lt_two
      · exact .inl Nat.zero_lt_one
    · rename_i l hl
      obtain rfl := Sum.inr.inj hturn
      obtain ⟨-, hlast, hleft', hpos', -, -⟩ := stringTurn_inr hpos hl
      refine ⟨?_, ?_⟩
      · intro dataPos' fromLast' first' h
        cases h
        exact ⟨hpos', hleft'⟩
      · rw [readMeasure, readMeasure, hphase, Prod.Lex.toLex_lt_toLex]
        refine .inr ⟨rfl, ?_⟩
        rw [Prod.Lex.toLex_lt_toLex]
        cases fromLast with
        | false => exact .inl (by rw [hlast]; exact Nat.one_lt_two)
        | true =>
          refine .inr ⟨by rw [hlast]; rfl, ?_⟩
          rw [Prod.Lex.toLex_lt_toLex]
          apply stringTurn_decreases hpos rfl _ hl
          intro hdead
          by_contra hshort
          exact hstuck ⟨⟨dataPos, first, hphase, hpos, not_le.mp hshort⟩, hleft, hdead⟩
  · dsimp only at hturn
    split_ifs at hturn with hdata herror
    obtain rfl := Sum.inr.inj hturn
    constructor
    · intro dataPos fromLast first h
      cases h
      refine ⟨Nat.zero_le _, fun hnil => hdata ?_⟩
      exact (List.append_eq_nil_iff.mp hnil).2
    · rw [readMeasure, readMeasure, Prod.Lex.toLex_lt_toLex]
      exact .inl (Conn.csRead_length hdata)

theorem stuck_goesOn (h : Stuck d r) : ∃ r', StringRead.turn d.inflate r = .inr r' ∧ Stuck d r' := by
  obtain ⟨dataPos, first, hphase, hpos, havail⟩ := h.phase
  have hincr := (@grown_length _ ⟨r.conn.pipe, r.ret, dataPos, true⟩ hpos).2
  have hroom : 0 < (StringLoop.mk r.conn.pipe r.ret dataPos true).avail % 2 ^ 32 := by
    rw [Nat.mod_eq_of_lt havail]
    exact lt_of_lt_of_le (by decide) hincr
  obtain ⟨houtput, hconsumed, hrc, hdead⟩ := h.dead.reply hroom
  refine turn_stuck hphase hpos h.left havail ⟨houtput, ?_, ?_⟩
  · rw [CompressedPipe2.reply, CompressedPipe2.input, if_pos rfl, hconsumed]
    exact hdead
  · rw [CompressedPipe2.reply, CompressedPipe2.input, if_pos rfl, hconsumed]
    exact hrc

/-- A read into a string returns exactly if the loop of `ProcessToString` never calls a decompressor
that has failed, or that is at the end of its stream with input left. -/
theorem readString_returns_iff (d : Inflater σ) (conn : Conn σ) (ret : Bytes) (timeout : Timeout) :
    (∃ result turns, readString d.inflate turns timeout ret conn = some result) ↔
      ∀ r, Loop.Reaches (StringRead.turn d.inflate) (.start conn ret timeout) r → ¬ Stuck d r := by
  apply Loop.ends_iff_never_stuck (readMeasure d) fun _ => stuck_goesOn
  · intro r hr hstuck
    cases hturn : StringRead.turn d.inflate r with
    | inl result => trivial
    | inr r' => exact turn_decreases hr hstuck hturn
  · exact inLoop_start conn ret timeout

def rejectAll : Inflate Bool := fun failed input _ =>
  if failed then ⟨true, .error, 0, []⟩
  else if input = [] then ⟨false, .bufError, 0, []⟩
  else ⟨true, .error, input.length, []⟩

def rejecting : Inflater Bool where
  inflate := rejectAll
  pending _ _ := 0
  ended _ := false
  failed := id
  consumed_le s input room := by unfold rejectAll; split_ifs <;> simp
  output_le s input room := by unfold rejectAll; split_ifs <;> simp
  progress s input room _ h := by unfold rejectAll at h; split_ifs at h
  finite s input room _ h := by unfold rejectAll at h; split_ifs at h
  needsInput s input room hroom h := by
    unfold rejectAll at h ⊢
    split_ifs at h ⊢ with hs hinput
    subst hinput
    exact ⟨rfl, hroom⟩
  ends s input room h := by unfold rejectAll at h; split_ifs at h
  fails s input room h := by
    unfold rejectAll at h ⊢
    split_ifs at h ⊢
    · rfl
    · rfl
  staysEnded _ _ _ _ h := by cases h
  staysFailed s input room _ h := by
    have hs : s = true := h
    subst hs
    exact ⟨rfl, rfl, rfl⟩

def garbage : Conn Bool where
  pipe :=
    { infState := false
      nextIn := []
      availOut := 0
      inputBuffer := []
      inputCapacity := 16384
      hasError := false }
  cs := [[255, 255]]

theorem garbage_read_never_returns :
    ¬ ∃ result turns, readString rejecting.inflate turns .wait [] garbage = some result := by
  let received : StringRead Bool :=
    { conn := garbage.csRead.2.addInput [255, 255]
      ret := []
      timeout := .wait
      phase := .process 0 false false }
  have hreceive : StringRead.turn rejecting.inflate (.start garbage [] .wait) = .inr received := rfl
  have havail : (StringLoop.mk received.conn.pipe [] 0 false).avail ≤ outputIncrSize :=
    avail_le (Nat.le_refl 0)
  have hdead : (received.conn.pipe.reply rejecting.inflate
      (StringLoop.mk received.conn.pipe [] 0 false).avail false) = ⟨true, .error, 2, []⟩ := rfl
  obtain ⟨r, hprocess, hstuck⟩ := @turn_stuck _ rejecting received 0 false false rfl
    (Nat.zero_le _) (List.cons_ne_nil _ _) (lt_of_le_of_lt havail (by decide))
    ⟨congrArg Reply.output hdead, .inl (congrArg Reply.state hdead),
      .inl (congrArg Reply.rc hdead)⟩
  rintro ⟨result, turns, hreturns⟩
  exact (Loop.not_ends_of_invariant (fun _ => stuck_goesOn) hstuck result)
    ((Loop.Reaches.turn hreceive (.turn hprocess (.here r))).ends ⟨turns, hreturns⟩)

end Returns

end Compressed

end UrBackup
