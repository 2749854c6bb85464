import UrBackup.Files.CopyFile

/-! Writing a received file over an older copy. Only blocks that differ are written, and the holes
that the client sent are punched. -/
namespace UrBackup

abbrev rpCopyBlocksize : Nat := 1024

/-- The variables of the loop. `extents` begins with `curr_extent`. -/
structure ReplaceLoop where
  tf : ReadFile
  dst : BackingFile
  dstPos : Nat
  dstEof : Bool
  extents : List SSparseExtent
  cowFilesize : Nat

namespace ReplaceLoop

variable (e : CopyFaults)

def punchExtents (s : ReplaceLoop) : List SSparseExtent → Option ReplaceLoop
  | [] => some { s with extents := [] }
  | extent :: extents =>
    if extent.offset ≥ s.dstPos ∧ extent.offset + extent.size > s.dstPos then
      (e.punchHoleOrZero s.dst extent.offset extent.size).bind fun dst =>
        let dstPos := extent.offset + extent.size
        punchExtents { s with tf := s.tf.seek dstPos, dst := dst.seek dstPos, dstPos } extents
    else some { s with extents := extent :: extents }

def readDst (s : ReplaceLoop) : List UInt8 :=
  if s.dstEof ∨ e.dstReadFails s.dst.pos = true then []
  else s.dst.stored.read s.dst.pos rpCopyBlocksize

def compareBlock (s : ReplaceLoop) (buf1 buf2 : List UInt8) : Option BackingFile :=
  let dst := s.dst.seek (s.dst.pos + buf2.length)
  if buf1.length ≠ buf2.length ∨ buf1 ≠ buf2 then
    e.writeRepeatFreeSpace (dst.seek s.dstPos) buf1
  else some dst

def finish (s : ReplaceLoop) : Option StoredFile :=
  if s.dst.stored.size ≠ s.tf.size then
    if e.resizeFails then none else some (s.dst.stored.resize s.tf.size)
  else some s.dst.stored

def turn (s : ReplaceLoop) : Option StoredFile ⊕ ReplaceLoop :=
  match punchExtents e s s.extents with
  | none => .inl none
  | some s =>
    let buf1 := s.tf.next rpCopyBlocksize
    let buf2 := readDst e s
    if e.readFails s.tf.pos then .inl none
    else
      match compareBlock e s buf1 buf2 with
      | none => .inl none
      | some dst =>
        let s' := { s with
          tf := s.tf.advance rpCopyBlocksize, dst, dstPos := s.dstPos + buf1.length
          dstEof := s.dstEof || decide (buf2.length < buf1.length)
          cowFilesize := s.cowFilesize +
            if buf1.length ≠ buf2.length ∨ buf1 ≠ buf2 then buf1.length else 0 }
        if buf1 = [] then .inl (finish e s') else .inr s'

def start (old : StoredFile) (tf : List UInt8) (extents : List SSparseExtent) : ReplaceLoop :=
  ⟨⟨tf, 0⟩, ⟨old, 0⟩, 0, false, extents, 0⟩

end ReplaceLoop

/-- The file at `dest` if `replaceFile` returns true. Without an older copy in place, or a reflink
to one, the received file is copied. -/
def replaceFile (e : CopyFaults) (turns : Nat) (inPlace reflinked : Bool) (old : StoredFile)
    (tf : List UInt8) (extents : List SSparseExtent) : Option (Option StoredFile) :=
  if inPlace = false ∧ reflinked = false then copyFile e turns tf extents
  else if e.openFails then some none
  else Loop.turns (ReplaceLoop.turn e) turns (.start old tf extents)

/-- A byte in one of the extents. -/
def Covered (extents : List SSparseExtent) (i : Nat) : Prop :=
  ∃ x ∈ extents, x.offset ≤ i ∧ i < x.offset + x.size

instance (extents : List SSparseExtent) (i : Nat) : Decidable (Covered extents i) :=
  inferInstanceAs (Decidable (∃ x ∈ extents, _))

/-- What is in front of an extent, and in none, is the same in the older copy. -/
def SameBeforeExtents (tf : List UInt8) (old : StoredFile) (extents : List SSparseExtent) : Prop :=
  ∀ i, (∃ x ∈ extents, i < x.offset) → ¬ Covered extents i → old.bytes i = tf.getD i 0

namespace ReplaceLoop

variable {e : CopyFaults} {tf : List UInt8} {old : StoredFile} {all done : List SSparseExtent}
  {s s' : ReplaceLoop} {last : Nat}

/-- The extents of a list are zero in the file, what is behind them and behind the copy agrees
with the received file, and everything else is as it was. -/
structure Replaced (tf : List UInt8) (old : StoredFile) (all done extents : List SSparseExtent)
    (last : Nat) (s : ReplaceLoop) : Prop where
  content : s.tf.content = tf
  tfPos : s.tf.pos = s.dstPos
  dstHandle : s.dstEof = false → s.dst.pos = s.dstPos
  extentsOf : ExtentsOf tf all
  split : all = done ++ extents
  last_le : ∀ x ∈ done, x.offset + x.size ≤ last
  before_last : ∀ i < last, ∃ x ∈ done, i < x.offset + x.size
  behind : last ≤ s.dstPos
  inside : s.dstPos ≤ tf.length
  ahead : ∀ x ∈ extents, s.dstPos ≤ x.offset
  untouched : extents ≠ [] → s.dstPos = last
  bytes : ∀ i, s.dst.stored.bytes i = if Covered done i then 0
    else if last ≤ i ∧ i < s.dstPos then tf.getD i 0 else old.bytes i
  ended : s.dst.stored.Ended

theorem covered_concat {x : SSparseExtent} {i : Nat} :
    Covered (done ++ [x]) i ↔ Covered done i ∨ x.offset ≤ i ∧ i < x.offset + x.size := by
  unfold Covered
  simp only [List.mem_append, List.mem_singleton, or_and_right, exists_or, exists_eq_left]

/-- The inner loop punches all extents that are left, at once. Induction on these. -/
theorem Replaced.punchExtents {extents : List SSparseExtent}
    (h : Replaced tf old all done extents last s)
    (hpunch : s.punchExtents e extents = some s') :
    s'.extents = [] ∧ s.dstPos ≤ s'.dstPos ∧ ∃ last', Replaced tf old all all [] last' s' := by
  induction extents generalizing s done last with
  | nil =>
    cases hpunch
    have hall : all = done := h.split.trans (List.append_nil done)
    subst hall
    exact ⟨rfl, le_refl _, last, h.content, h.tfPos, h.dstHandle, h.extentsOf, h.split, h.last_le,
      h.before_last, h.behind, h.inside, h.ahead, h.untouched, h.bytes, h.ended⟩
  | cons x extents ih =>
    rw [ReplaceLoop.punchExtents] at hpunch
    have hx : x ∈ all := by
      rw [h.split]
      exact List.mem_append_right _ List.mem_cons_self
    have hsize := h.extentsOf.nonempty x hx
    have hoffset := h.ahead x List.mem_cons_self
    have hlast := h.untouched (List.cons_ne_nil x extents)
    rw [if_pos ⟨hoffset, by omega⟩] at hpunch
    obtain ⟨dst, hhole, hrest⟩ := Option.bind_eq_some_iff.mp hpunch
    obtain ⟨hbytes, -, -, hended⟩ := punchHoleOrZero_spec hhole
    have hsorted := h.extentsOf.sorted
    rw [h.split] at hsorted
    have hbehind := (List.pairwise_cons.mp (List.pairwise_append.mp hsorted).2.1).1
    suffices hnext : Replaced tf old all (done ++ [x]) extents (x.offset + x.size) { s with
        tf := s.tf.seek (x.offset + x.size), dst := dst.seek (x.offset + x.size)
        dstPos := x.offset + x.size } by
      obtain ⟨hnil, hle, hlast'⟩ := ih hnext hrest
      have hfurther : x.offset + x.size ≤ s'.dstPos := hle
      exact ⟨hnil, by omega, hlast'⟩
    refine ⟨h.content, rfl, fun _ => rfl, h.extentsOf, ?_, ?_, ?_, le_refl _,
      h.extentsOf.inside x hx, hbehind, fun _ => rfl, ?_, hended h.ended⟩
    · rw [h.split, List.append_assoc, List.singleton_append]
    · intro y hy
      rcases List.mem_append.mp hy with hy | hy
      · have hle := h.last_le y hy
        omega
      · rw [List.mem_singleton.mp hy]
    · intro i hi
      exact ⟨x, List.mem_append_right _ List.mem_cons_self, hi⟩
    · intro i
      change dst.stored.bytes i = _
      rw [hbytes, h.bytes]
      have hcovered := @covered_concat done x i
      by_cases hin : x.offset ≤ i ∧ i < x.offset + x.size
      · rw [if_pos hin, if_pos (hcovered.mpr (.inr hin))]
      · rw [if_neg hin]
        by_cases hdone : Covered done i
        · rw [if_pos hdone, if_pos (hcovered.mpr (.inl hdone))]
        · rw [if_neg hdone, if_neg (fun hc => (hcovered.mp hc).elim hdone hin),
            if_neg (by omega), if_neg]
          rintro ⟨hle, hlt⟩
          change i < x.offset + x.size at hlt
          omega

theorem compareBlock_spec {extents : List SSparseExtent} {dst : BackingFile}
    (h : Replaced tf old all done extents last s)
    (hdst : compareBlock e s (s.tf.next rpCopyBlocksize) (readDst e s) = some dst) :
    (∀ i, dst.stored.bytes i =
      if s.dstPos ≤ i ∧ i < s.dstPos + (s.tf.next rpCopyBlocksize).length then tf.getD i 0
      else s.dst.stored.bytes i) ∧
    ((s.dstEof || decide ((readDst e s).length < (s.tf.next rpCopyBlocksize).length)) = false →
      dst.pos = s.dstPos + (s.tf.next rpCopyBlocksize).length) ∧ dst.stored.Ended := by
  unfold compareBlock at hdst
  split at hdst
  · have hwrite := writeRepeatFreeSpace_eq hdst
    rw [hwrite]
    refine ⟨?_, fun _ => rfl, h.ended.write _ _⟩
    intro i
    rw [bytes_write_next (by exact h.tfPos), h.content]
    rfl
  · rename_i hsame
    rw [not_or, not_not, not_not] at hsame
    cases hdst
    refine ⟨?_, ?_, h.ended⟩
    · intro i
      change s.dst.stored.bytes i = _
      by_cases hmem : s.dstPos ≤ i ∧ i < s.dstPos + (s.tf.next rpCopyBlocksize).length
      · have hread : readDst e s = s.dst.stored.read s.dst.pos rpCopyBlocksize := by
          rw [readDst, if_neg]
          intro hnothing
          have hnil : readDst e s = [] := if_pos hnothing
          rw [hnil, List.length_nil] at hsame
          omega
        have hhandle : s.dst.pos = s.dstPos := by
          apply h.dstHandle
          by_contra heof
          have hnil : readDst e s = [] := if_pos (.inl (by simpa using heof))
          rw [hnil, List.length_nil] at hsame
          omega
        have hi : i - s.dstPos < (s.tf.next rpCopyBlocksize).length := by omega
        have hbyte := ReadFile.getElem_next hi
        have hblock : s.tf.next rpCopyBlocksize = s.dst.stored.read s.dst.pos rpCopyBlocksize :=
          hsame.2.trans hread
        simp only [hblock] at hi hbyte
        rw [StoredFile.getElem_read hi, hhandle, h.tfPos, h.content,
          Nat.add_sub_of_le hmem.1] at hbyte
        rw [if_pos hmem, hbyte]
      · rw [if_neg hmem]
    · intro heof
      obtain ⟨hnot, -⟩ := Bool.or_eq_false_iff.mp heof
      change s.dst.pos + (readDst e s).length = _
      rw [h.dstHandle hnot, hsame.1]

theorem Replaced.before_extent (h : Replaced tf old all all [] last s) {i : Nat} :
    i < last ∧ ¬ Covered all i ↔ (∃ x ∈ all, i < x.offset) ∧ ¬ Covered all i := by
  apply and_congr_left
  intro hnot
  constructor
  · intro hi
    obtain ⟨x, hx, hlt⟩ := h.before_last i hi
    refine ⟨x, hx, ?_⟩
    by_contra hle
    exact hnot ⟨x, hx, by omega, hlt⟩
  · rintro ⟨x, hx, hlt⟩
    have hle := h.last_le x hx
    omega

theorem Replaced.finish {dst : StoredFile} (h : Replaced tf old all all [] last s)
    (hend : s.dstPos = tf.length) (hfinish : finish e s = some dst) :
    CopyOf tf dst ↔ SameBeforeExtents tf old all := by
  have hsize : s.tf.size = tf.length := congrArg List.length h.content
  have hdst : dst.size = tf.length ∧ ∀ i < tf.length, dst.bytes i = s.dst.stored.bytes i := by
    unfold ReplaceLoop.finish at hfinish
    split at hfinish
    · split at hfinish
      · cases hfinish
      · cases hfinish
        rw [hsize]
        exact ⟨rfl, fun i hi => if_pos hi⟩
    · rename_i hsame
      rw [not_not] at hsame
      cases hfinish
      exact ⟨hsame.trans hsize, fun _ _ => rfl⟩
  constructor
  · rintro ⟨-, hcopy⟩ i hbefore hnot
    have hi : i < last := (h.before_extent.mpr ⟨hbefore, hnot⟩).1
    have hin : i < tf.length := by
      have hbehind := h.behind
      omega
    have hbyte := hcopy i hin
    rw [hdst.2 i hin, h.bytes, if_neg hnot, if_neg (by omega)] at hbyte
    exact hbyte
  · intro hsame
    refine ⟨hdst.1, fun i hi => ?_⟩
    rw [hdst.2 i hi, h.bytes]
    by_cases hcovered : Covered all i
    · obtain ⟨x, hx, hle, hlt⟩ := hcovered
      rw [if_pos ⟨x, hx, hle, hlt⟩, h.extentsOf.zero x hx i hle hlt]
    · rw [if_neg hcovered]
      by_cases hlast : last ≤ i
      · rw [if_pos ⟨hlast, by omega⟩]
      · rw [if_neg (by omega)]
        exact hsame i (h.before_extent.mp ⟨by omega, hcovered⟩).1 hcovered

theorem Replaced.turn (h : Replaced tf old all done s.extents last s) :
    match turn e s with
    | .inl none => True
    | .inl (some dst) => CopyOf tf dst ↔ SameBeforeExtents tf old all
    | .inr s' => (∃ done last, Replaced tf old all done s'.extents last s') ∧
        tf.length - s'.dstPos < tf.length - s.dstPos := by
  unfold ReplaceLoop.turn
  cases hpunch : s.punchExtents e s.extents with
  | none => trivial
  | some s₁ =>
    obtain ⟨hnil, hle, last₁, h₁⟩ := h.punchExtents hpunch
    simp only
    by_cases hfail : e.readFails s₁.tf.pos = true
    · rw [if_pos hfail]
      trivial
    · rw [if_neg hfail]
      cases hblock : compareBlock e s₁ (s₁.tf.next rpCopyBlocksize) (readDst e s₁) with
      | none => trivial
      | some dst =>
        obtain ⟨hbytes, hhandle, hended⟩ := compareBlock_spec h₁ hblock
        have hlength := @ReadFile.next_length s₁.tf rpCopyBlocksize
        rw [h₁.content, h₁.tfPos] at hlength
        have hinside := h₁.inside
        have hbehind := h₁.behind
        simp only
        generalize hs' : ({ s₁ with
          tf := s₁.tf.advance rpCopyBlocksize, dst
          dstPos := s₁.dstPos + (s₁.tf.next rpCopyBlocksize).length
          dstEof := s₁.dstEof ||
            decide ((readDst e s₁).length < (s₁.tf.next rpCopyBlocksize).length)
          cowFilesize := s₁.cowFilesize +
            if (s₁.tf.next rpCopyBlocksize).length ≠ (readDst e s₁).length ∨
                s₁.tf.next rpCopyBlocksize ≠ readDst e s₁ then
              (s₁.tf.next rpCopyBlocksize).length else 0 } : ReplaceLoop) = s'
        have hpos : s'.dstPos = s₁.dstPos + (s₁.tf.next rpCopyBlocksize).length := by
          rw [← hs']
        have hextents : s'.extents = [] := by
          rw [← hs']
          exact hnil
        have hreplaced : Replaced tf old all all [] last₁ s' := by
          rw [← hs']
          refine ⟨h₁.content, ?_, hhandle, h₁.extentsOf, h₁.split, h₁.last_le, h₁.before_last,
            ?_, ?_, fun x hx => absurd hx List.not_mem_nil, fun hne => absurd rfl hne, ?_,
            hended⟩
          · exact congrArg (· + (s₁.tf.next rpCopyBlocksize).length) h₁.tfPos
          · change last₁ ≤ s₁.dstPos + (s₁.tf.next rpCopyBlocksize).length
            omega
          · change s₁.dstPos + (s₁.tf.next rpCopyBlocksize).length ≤ tf.length
            omega
          · intro i
            change dst.stored.bytes i = if Covered all i then 0
              else if last₁ ≤ i ∧ i < s₁.dstPos + (s₁.tf.next rpCopyBlocksize).length then
                tf.getD i 0 else old.bytes i
            rw [hbytes, h₁.bytes]
            by_cases hmem : s₁.dstPos ≤ i ∧
                i < s₁.dstPos + (s₁.tf.next rpCopyBlocksize).length
            · have hfree : ¬ Covered all i := by
                rintro ⟨x, hx, -, hlt⟩
                have hx := h₁.last_le x hx
                omega
              rw [if_pos hmem, if_neg hfree, if_pos ⟨by omega, hmem.2⟩]
            · rw [if_neg hmem]
              by_cases hcovered : Covered all i
              · rw [if_pos hcovered, if_pos hcovered]
              · rw [if_neg hcovered, if_neg hcovered]
                by_cases hlt : i < s₁.dstPos
                · by_cases hlast : last₁ ≤ i
                  · rw [if_pos ⟨hlast, hlt⟩, if_pos ⟨hlast, by omega⟩]
                  · rw [if_neg (by omega), if_neg (by omega)]
                · rw [if_neg (by omega), if_neg (by omega)]
        by_cases hempty : s₁.tf.next rpCopyBlocksize = []
        · rw [if_pos hempty]
          rw [hempty, List.length_nil] at hlength hpos
          have hend : s'.dstPos = tf.length := by
            unfold rpCopyBlocksize at hlength
            omega
          cases hfinish : ReplaceLoop.finish e s' with
          | none => trivial
          | some d => exact hreplaced.finish hend hfinish
        · rw [if_neg hempty]
          have hpositive := List.length_pos_iff.mpr hempty
          refine ⟨⟨all, last₁, ?_⟩, by omega⟩
          rw [hextents]
          exact hreplaced

theorem replaced_start (hold : old.Ended) (h : ExtentsOf tf all) :
    Replaced tf old all [] all 0 (.start old tf all) := by
  refine ⟨rfl, rfl, fun _ => rfl, h, rfl, fun x hx => absurd hx List.not_mem_nil,
    fun i hi => absurd hi (Nat.not_lt_zero i), le_refl _, Nat.zero_le _, fun _ _ => Nat.zero_le _,
    fun _ => rfl, ?_, hold⟩
  intro i
  have hnot : ¬ Covered [] i := by
    rintro ⟨x, hx, -⟩
    exact List.not_mem_nil hx
  rw [if_neg hnot, if_neg]
  · rfl
  · exact fun hlt => Nat.not_lt_zero i hlt.2

end ReplaceLoop

/-- Replacing ends. What it returns is the received file exactly if the older copy had the same
bytes in front of the extents. -/
theorem replaceLoop_ends (e : CopyFaults) {old : StoredFile} (hold : old.Ended) {tf : List UInt8}
    {extents : List SSparseExtent} (h : ExtentsOf tf extents) :
    ∃ res, Loop.Ends (ReplaceLoop.turn e) (.start old tf extents) res ∧
      ∀ dst, res = some dst → (CopyOf tf dst ↔ SameBeforeExtents tf old extents) := by
  refine @Loop.Ends.of_invariant _ _ (ReplaceLoop.turn e)
    (fun s => ∃ done last, ReplaceLoop.Replaced tf old extents done s.extents last s)
    (fun res => ∀ dst, res = some dst → (CopyOf tf dst ↔ SameBeforeExtents tf old extents))
    (fun s => tf.length - s.dstPos) ?_ _ ⟨[], 0, ReplaceLoop.replaced_start hold h⟩
  rintro s ⟨done, last, hs⟩
  have hturn := @ReplaceLoop.Replaced.turn e tf old extents done s last hs
  cases hres : ReplaceLoop.turn e s with
  | inl res =>
    rw [hres] at hturn
    cases res with
    | none => exact nofun
    | some dst =>
      intro _ heq
      cases heq
      exact hturn
  | inr s' =>
    rw [hres] at hturn
    exact hturn

/-- Copying a received file gives the received file. Replacing an older copy does exactly if nothing
is reflinked, and the file is copied after all, or the older copy had the same bytes in front of
the extents. -/
theorem stored_copy_iff (e : CopyFaults) (inPlace reflinked : Bool) {old : StoredFile}
    (hold : old.Ended) {tf : List UInt8} {extents : List SSparseExtent} (h : ExtentsOf tf extents) :
    (∀ turns dst, copyFile e turns tf extents = some (some dst) → CopyOf tf dst) ∧
      ∀ turns dst, replaceFile e turns inPlace reflinked old tf extents = some (some dst) →
        (CopyOf tf dst ↔
          (inPlace = false ∧ reflinked = false) ∨ SameBeforeExtents tf old extents) := by
  have hcopy := (copyFile_copies e h).2
  refine ⟨hcopy, ?_⟩
  intro turns dst hdst
  unfold replaceFile at hdst
  split at hdst
  · rename_i hlink
    exact ⟨fun _ => .inl hlink, fun _ => hcopy turns dst hdst⟩
  · rename_i hlink
    split at hdst
    · cases hdst
    · obtain ⟨res, hends, hres⟩ := replaceLoop_ends e hold h
      rw [hres dst (hends.unique ⟨turns, hdst⟩)]
      exact (or_iff_right hlink).symm

section Example

def noFaults : CopyFaults := ⟨false, fun _ => false, fun _ => false, fun _ => false,
  fun _ _ => false, false⟩

def olderCopy : StoredFile := StoredFile.empty.write 0 [7, 7]

theorem extentsOf_secondByte : ExtentsOf [1, 0] [⟨1, 1⟩] := by
  refine ⟨List.pairwise_singleton _ _, ?_, ?_, ?_⟩
  · decide
  · decide
  · intro x hx i hle hlt
    obtain rfl := List.mem_singleton.mp hx
    have hi : i = 1 := by
      simp only at hle hlt
      omega
    rw [hi]
    rfl

theorem olderCopy_ended : olderCopy.Ended :=
  StoredFile.Ended.write (fun _ _ => rfl) 0 [7, 7]

theorem stored_copy_iff_secondByte : ∃ dst,
    replaceFile noFaults 2 false true olderCopy [1, 0] [⟨1, 1⟩] = some (some dst) ∧
      (CopyOf [1, 0] dst ↔
        (false = false ∧ true = false) ∨ SameBeforeExtents [1, 0] olderCopy [⟨1, 1⟩]) :=
  ⟨_, rfl, (stored_copy_iff noFaults false true olderCopy_ended extentsOf_secondByte).2 2 _ rfl⟩

/-- The first byte, in front of the hole, stays as it was in the older copy. -/
theorem byte_before_hole_is_kept :
    ¬ ∀ (e : CopyFaults) (turns : Nat) (inPlace reflinked : Bool) (old : StoredFile)
      (tf : List UInt8) (extents : List SSparseExtent) (dst : StoredFile), old.Ended →
      ExtentsOf tf extents →
      replaceFile e turns inPlace reflinked old tf extents = some (some dst) → CopyOf tf dst := by
  intro h
  have hcopy := h noFaults 2 false true olderCopy [1, 0] [⟨1, 1⟩] _ olderCopy_ended
    extentsOf_secondByte rfl
  have hbyte := hcopy.2 0 (by decide)
  revert hbyte
  decide

end Example

end UrBackup
