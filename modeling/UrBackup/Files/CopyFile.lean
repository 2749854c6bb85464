import Mathlib
import UrBackup.Download.SparseFile
import UrBackup.Lib.Loop
import UrBackup.Lib.ReadFile

/-! Copying a received file to its place in the backup, with the holes that the client sent. -/
namespace UrBackup

/-- Which of the operations on the files fail. A hole that cannot be punched changes nothing. -/
structure CopyFaults where
  openFails : Bool
  readFails : (pos : Nat) → Bool
  dstReadFails : (pos : Nat) → Bool
  writeFails : (pos : Nat) → Bool
  punchFails : (offset size : Nat) → Bool
  resizeFails : Bool

namespace CopyFaults

variable (e : CopyFaults)

def writeRepeatFreeSpace (f : BackingFile) (buf : List UInt8) : Option BackingFile :=
  if e.writeFails f.pos then none else some (f.write buf)

abbrev zeroBufSize : Nat := 32768

def writeZeros (f : BackingFile) (remaining : Nat) : Option BackingFile :=
  if remaining = 0 then some f
  else (e.writeRepeatFreeSpace f (List.replicate (min remaining zeroBufSize) 0)).bind fun f =>
    writeZeros f (remaining - min remaining zeroBufSize)
termination_by remaining
decreasing_by
  unfold zeroBufSize
  omega

def punchHoleOrZero (f : BackingFile) (offset size : Nat) : Option BackingFile :=
  if e.punchFails offset size then e.writeZeros (f.seek offset) size
  else some { f with stored := f.stored.punchHole offset size }

end CopyFaults

abbrev copyBufferSize : Nat := 64 * 1024

/-- The variables of the copy loop. `extents` begins with `curr_extent`. -/
structure CopyLoop where
  tf : ReadFile
  dst : BackingFile
  fpos : Nat
  extents : List SSparseExtent
  sparseMax : Option Nat

namespace CopyLoop

variable (e : CopyFaults)

/-- The inner loop over the extents at the place that the copy has come to. -/
def skipExtents (s : CopyLoop) : List SSparseExtent → Option CopyLoop
  | [] => some { s with extents := [] }
  | extent :: extents =>
    if s.fpos ≥ extent.offset ∧ s.fpos ≤ extent.offset + extent.size then
      let fpos := extent.offset + extent.size
      (e.punchHoleOrZero s.dst extent.offset extent.size).bind fun dst =>
        skipExtents { s with
          tf := s.tf.seek fpos, dst := dst.seek fpos, fpos, sparseMax := some fpos } extents
    else some { s with extents := extent :: extents }

def toread (fpos : Nat) : List SSparseExtent → Nat
  | [] => copyBufferSize
  | extent :: _ =>
    if fpos + copyBufferSize > extent.offset then
      min copyBufferSize (((extent.offset : Int) - fpos) % 2 ^ 32).toNat
    else copyBufferSize

def finish (s : CopyLoop) : Option StoredFile :=
  match s.sparseMax with
  | none => some s.dst.stored
  | some sparseMax =>
    if sparseMax > s.dst.stored.size then
      if e.resizeFails then none else some (s.dst.stored.resize (min s.tf.size sparseMax))
    else some s.dst.stored

def turn (s : CopyLoop) : Option StoredFile ⊕ CopyLoop :=
  match skipExtents e s s.extents with
  | none => .inl none
  | some s =>
    let n := toread s.fpos s.extents
    if e.readFails s.tf.pos then .inl none
    else
      match e.writeRepeatFreeSpace s.dst (s.tf.next n) with
      | none => .inl none
      | some dst =>
        let s' := { s with
          tf := s.tf.advance n, dst, fpos := s.fpos + (s.tf.next n).length }
        if s.tf.next n = [] then .inl (finish e s') else .inr s'

def start (tf : List UInt8) (extents : List SSparseExtent) : CopyLoop :=
  ⟨⟨tf, 0⟩, .empty, 0, extents, none⟩

end CopyLoop

/-- The file at `dest` if `copyFile` returns true, after this many turns of its loop. -/
def copyFile (e : CopyFaults) (turns : Nat) (tf : List UInt8) (extents : List SSparseExtent) :
    Option (Option StoredFile) :=
  if e.openFails then some none else Loop.turns (CopyLoop.turn e) turns (.start tf extents)

/-- Extents as the client sends them: one behind the other, none empty, all inside of the file and
zero there. -/
structure ExtentsOf (tf : List UInt8) (extents : List SSparseExtent) : Prop where
  sorted : extents.Pairwise fun a b => a.offset + a.size ≤ b.offset
  nonempty : ∀ x ∈ extents, 0 < x.size
  inside : ∀ x ∈ extents, x.offset + x.size ≤ tf.length
  zero : ∀ x ∈ extents, ∀ i, x.offset ≤ i → i < x.offset + x.size → tf.getD i 0 = 0

theorem ExtentsOf.tail {tf : List UInt8} {x : SSparseExtent} {extents : List SSparseExtent}
    (h : ExtentsOf tf (x :: extents)) : ExtentsOf tf extents :=
  ⟨(List.pairwise_cons.mp h.sorted).2, fun y hy => h.nonempty y (List.mem_cons_of_mem _ hy),
    fun y hy => h.inside y (List.mem_cons_of_mem _ hy),
    fun y hy => h.zero y (List.mem_cons_of_mem _ hy)⟩

/-- The file has the size and the bytes of the other one. -/
def CopyOf (tf : List UInt8) (dst : StoredFile) : Prop :=
  dst.size = tf.length ∧ ∀ i < tf.length, dst.bytes i = tf.getD i 0

section Writes

variable {e : CopyFaults} {f f' : BackingFile} {buf buf' : List UInt8} {n offset size i : Nat}

theorem BackingFile.write_append (hbuf : buf ≠ []) :
    (f.write buf).write buf' = f.write (buf ++ buf') := by
  simp only [BackingFile.write, StoredFile.write_append _ _ hbuf, List.length_append, Nat.add_assoc]

theorem BackingFile.write_nil : f.write [] = f := by
  simp only [BackingFile.write, StoredFile.write_nil, List.length_nil, Nat.add_zero]

theorem writeRepeatFreeSpace_eq (h : e.writeRepeatFreeSpace f buf = some f') : f' = f.write buf := by
  unfold CopyFaults.writeRepeatFreeSpace at h
  split at h
  · cases h
  · exact (Option.some.inj h).symm

theorem writeZeros_eq (h : e.writeZeros f n = some f') : f' = f.write (List.replicate n 0) := by
  induction n using Nat.strong_induction_on generalizing f with
  | _ n ih =>
    rw [CopyFaults.writeZeros] at h
    split at h
    · rename_i hzero
      cases h
      rw [hzero, List.replicate_zero, BackingFile.write_nil]
    · rename_i hne
      obtain ⟨f₁, hfirst, hrest⟩ := Option.bind_eq_some_iff.mp h
      have hpos : 0 < min n CopyFaults.zeroBufSize := by
        unfold CopyFaults.zeroBufSize
        omega
      rw [ih _ (by omega) hrest, writeRepeatFreeSpace_eq hfirst, BackingFile.write_append,
        ← List.replicate_add]
      · congr 2
        omega
      · rw [Ne, List.replicate_eq_nil_iff]
        omega

/-- Either way the range is zero, and the file does not end before or far behind. -/
theorem punchHoleOrZero_spec (h : e.punchHoleOrZero f offset size = some f') :
    (∀ i, f'.stored.bytes i =
      if offset ≤ i ∧ i < offset + size then 0 else f.stored.bytes i) ∧
    f.stored.size ≤ f'.stored.size ∧ f'.stored.size ≤ max f.stored.size (offset + size) ∧
    (f.stored.Ended → f'.stored.Ended) := by
  unfold CopyFaults.punchHoleOrZero at h
  split at h
  · rw [writeZeros_eq h]
    refine ⟨?_, StoredFile.size_le_write _ _ _, ?_, fun hended => hended.write _ _⟩
    · intro i
      change f.stored.bytes.write offset (List.replicate size 0) i = _
      by_cases hmem : offset ≤ i ∧ i < offset + size
      · rw [if_pos hmem, ByteStore.write_of_mem hmem.1 (by rw [List.length_replicate]; omega),
          List.getElem_replicate]
      · rw [if_neg hmem, ByteStore.write_of_not_mem (by rw [List.length_replicate]; exact hmem)]
    · change (if _ then f.stored.size else max f.stored.size (offset + _)) ≤ _
      rw [List.length_replicate]
      split
      · exact le_max_left _ _
      · exact le_refl _
  · cases h
    refine ⟨fun i => rfl, le_refl _, le_max_left _ _, fun hended => hended.punchHole _ _⟩

theorem bytes_write_next {tf : ReadFile} (hpos : tf.pos = f.pos) (i : Nat) :
    (f.write (tf.next n)).stored.bytes i =
      if f.pos ≤ i ∧ i < f.pos + (tf.next n).length then tf.content.getD i 0
      else f.stored.bytes i := by
  change f.stored.bytes.write f.pos (tf.next n) i = _
  by_cases hmem : f.pos ≤ i ∧ i < f.pos + (tf.next n).length
  · rw [if_pos hmem, ByteStore.write_of_mem hmem.1 (by omega), ReadFile.getElem_next, hpos,
      Nat.add_sub_of_le hmem.1]
  · rw [if_neg hmem, ByteStore.write_of_not_mem hmem]

end Writes

namespace CopyLoop

variable {e : CopyFaults} {tf : List UInt8} {s s' : CopyLoop} {extents : List SSparseExtent}

/-- What is behind the copy agrees with the received file, and nothing is written in front of it.
The file may end before if the copy is at the end of a hole. -/
structure Copied (tf : List UInt8) (extents : List SSparseExtent) (s : CopyLoop) : Prop where
  content : s.tf.content = tf
  tfPos : s.tf.pos = s.fpos
  dstPos : s.dst.pos = s.fpos
  inside : s.fpos ≤ tf.length
  extentsOf : ExtentsOf tf extents
  ahead : ∀ x ∈ extents, s.fpos ≤ x.offset
  bytes : ∀ i, s.dst.stored.bytes i = if i < s.fpos then tf.getD i 0 else 0
  size_le : s.dst.stored.size ≤ s.fpos
  ends : s.dst.stored.size = s.fpos ∨ s.sparseMax = some s.fpos
  sparseMax_le : ∀ m, s.sparseMax = some m → m ≤ s.fpos

theorem Copied.skipExtents (h : Copied tf extents s)
    (hskip : s.skipExtents e extents = some s') :
    Copied tf s'.extents s' ∧ (∀ x ∈ s'.extents, s'.fpos < x.offset) ∧ s.fpos ≤ s'.fpos := by
  induction extents generalizing s with
  | nil =>
    cases hskip
    exact ⟨⟨h.content, h.tfPos, h.dstPos, h.inside, h.extentsOf, h.ahead, h.bytes, h.size_le,
      h.ends, h.sparseMax_le⟩, fun x hx => absurd hx List.not_mem_nil, le_refl _⟩
  | cons x extents ih =>
    rw [CopyLoop.skipExtents] at hskip
    have hsorted := (List.pairwise_cons.mp h.extentsOf.sorted).1
    have hoffset := h.ahead x List.mem_cons_self
    split at hskip
    · obtain ⟨dst, hpunch, hrest⟩ := Option.bind_eq_some_iff.mp hskip
      obtain ⟨hbytes, hgrows, hsize, -⟩ := punchHoleOrZero_spec hpunch
      have hinside := h.extentsOf.inside x List.mem_cons_self
      have hsize_le := h.size_le
      have hfpos : s.fpos = x.offset := by omega
      have hcopied : Copied tf extents { s with
          tf := s.tf.seek (x.offset + x.size), dst := dst.seek (x.offset + x.size)
          fpos := x.offset + x.size, sparseMax := some (x.offset + x.size) } := by
        refine ⟨h.content, rfl, rfl, hinside, h.extentsOf.tail, hsorted, ?_, ?_, .inr rfl, ?_⟩
        · intro i
          change dst.stored.bytes i = if i < x.offset + x.size then _ else _
          rw [hbytes, h.bytes]
          have hzero := h.extentsOf.zero x List.mem_cons_self i
          by_cases hin : x.offset ≤ i ∧ i < x.offset + x.size
          · rw [if_pos hin, if_pos hin.2, hzero hin.1 hin.2]
          · rw [if_neg hin]
            by_cases hlt : i < s.fpos
            · rw [if_pos hlt, if_pos (by omega)]
            · rw [if_neg hlt, if_neg (by omega)]
        · change dst.stored.size ≤ x.offset + x.size
          omega
        · intro m hm
          exact (Option.some.inj hm).symm.le
      obtain ⟨hdone, hnext, hle⟩ := ih hcopied hrest
      exact ⟨hdone, hnext, by
        have hend : x.offset + x.size ≤ s'.fpos := hle
        omega⟩
    · rename_i hnot
      cases hskip
      have hlt : s.fpos < x.offset := by omega
      refine ⟨⟨h.content, h.tfPos, h.dstPos, h.inside, h.extentsOf, h.ahead, h.bytes, h.size_le,
        h.ends, h.sparseMax_le⟩, ?_, le_refl _⟩
      intro y hy
      change s.fpos < y.offset
      rcases List.mem_cons.mp hy with rfl | hy
      · exact hlt
      · have hbehind := hsorted y hy
        omega

theorem toread_spec {fpos : Nat} (hahead : ∀ x ∈ extents, fpos < x.offset)
    (hsorted : extents.Pairwise fun a b => a.offset + a.size ≤ b.offset) :
    0 < toread fpos extents ∧ ∀ x ∈ extents, fpos + toread fpos extents ≤ x.offset := by
  cases extents with
  | nil =>
    refine ⟨?_, fun x hx => absurd hx List.not_mem_nil⟩
    change 0 < copyBufferSize
    decide
  | cons x extents =>
    have hx := hahead x List.mem_cons_self
    have hhead : 0 < toread fpos (x :: extents) ∧
        fpos + toread fpos (x :: extents) ≤ x.offset := by
      simp only [toread, copyBufferSize]
      split
      · omega
      · omega
    refine ⟨hhead.1, ?_⟩
    intro y hy
    rcases List.mem_cons.mp hy with rfl | hy
    · exact hhead.2
    · have hbehind := (List.pairwise_cons.mp hsorted).1 y hy
      omega

theorem Copied.finish {dst : StoredFile} (h : Copied tf extents s) (hend : s.fpos = tf.length)
    (hfinish : finish e s = some dst) : CopyOf tf dst := by
  have hbytes : ∀ i < tf.length, s.dst.stored.bytes i = tf.getD i 0 := by
    intro i hi
    rw [h.bytes, if_pos (by omega)]
  have hsize : s.tf.size = tf.length := congrArg List.length h.content
  have hsize_le := h.size_le
  unfold CopyLoop.finish at hfinish
  rcases h.ends with hends | hends
  · have hdst : s.dst.stored = dst := by
      split at hfinish
      · exact Option.some.inj hfinish
      · rename_i m hm
        have hle := h.sparseMax_le m hm
        rw [if_neg (by omega)] at hfinish
        exact Option.some.inj hfinish
    rw [← hdst]
    exact ⟨by omega, hbytes⟩
  · rw [hends] at hfinish
    simp only at hfinish
    split at hfinish
    · split at hfinish
      · cases hfinish
      · cases hfinish
        rw [hsize, hend, min_self]
        refine ⟨rfl, fun i hi => ?_⟩
        exact (if_pos hi).trans (hbytes i hi)
    · cases hfinish
      exact ⟨by omega, hbytes⟩

theorem Copied.turn (h : Copied tf s.extents s) :
    match turn e s with
    | .inl none => True
    | .inl (some dst) => CopyOf tf dst
    | .inr s' => Copied tf s'.extents s' ∧ tf.length - s'.fpos < tf.length - s.fpos := by
  unfold CopyLoop.turn
  cases hskip : s.skipExtents e s.extents with
  | none => trivial
  | some s₁ =>
    obtain ⟨h₁, hahead, hle⟩ := h.skipExtents hskip
    obtain ⟨hpos, hread⟩ := toread_spec hahead h₁.extentsOf.sorted
    simp only
    generalize toread s₁.fpos s₁.extents = n at hpos hread
    by_cases hfail : e.readFails s₁.tf.pos = true
    · rw [if_pos hfail]
      trivial
    · rw [if_neg hfail]
      cases hwrite : e.writeRepeatFreeSpace s₁.dst (s₁.tf.next n) with
      | none => trivial
      | some dst =>
        have hdst := writeRepeatFreeSpace_eq hwrite
        have hlength := @ReadFile.next_length s₁.tf n
        rw [h₁.content, h₁.tfPos] at hlength
        have hinside := h₁.inside
        have hsize_le := h₁.size_le
        have hends := h₁.ends
        have hsize : dst.stored.size =
            if s₁.tf.next n = [] then s₁.dst.stored.size
            else max s₁.dst.stored.size (s₁.fpos + (s₁.tf.next n).length) := by
          rw [hdst, ← h₁.dstPos]
          rfl
        have hcopied : Copied tf s₁.extents { s₁ with
            tf := s₁.tf.advance n, dst, fpos := s₁.fpos + (s₁.tf.next n).length } := by
          refine ⟨h₁.content, ?_, ?_, ?_, h₁.extentsOf, ?_, ?_, ?_, ?_, ?_⟩
          · change s₁.tf.pos + (s₁.tf.next n).length = s₁.fpos + (s₁.tf.next n).length
            rw [h₁.tfPos]
          · rw [hdst]
            change s₁.dst.pos + (s₁.tf.next n).length = s₁.fpos + (s₁.tf.next n).length
            rw [h₁.dstPos]
          · change s₁.fpos + (s₁.tf.next n).length ≤ tf.length
            omega
          · intro x hx
            have hx := hread x hx
            change s₁.fpos + (s₁.tf.next n).length ≤ x.offset
            omega
          · intro i
            change dst.stored.bytes i =
              if i < s₁.fpos + (s₁.tf.next n).length then tf.getD i 0 else 0
            rw [hdst, bytes_write_next (h₁.tfPos.trans h₁.dstPos.symm), h₁.bytes, h₁.content,
              h₁.dstPos]
            by_cases hmem : s₁.fpos ≤ i ∧ i < s₁.fpos + (s₁.tf.next n).length
            · rw [if_pos hmem, if_pos hmem.2]
            · rw [if_neg hmem]
              by_cases hlt : i < s₁.fpos
              · rw [if_pos hlt, if_pos (by omega)]
              · rw [if_neg hlt, if_neg (by omega)]
          · change dst.stored.size ≤ s₁.fpos + (s₁.tf.next n).length
            rw [hsize]
            split
            · omega
            · omega
          · change dst.stored.size = s₁.fpos + (s₁.tf.next n).length ∨
              s₁.sparseMax = some (s₁.fpos + (s₁.tf.next n).length)
            rw [hsize]
            split
            · rename_i hnil
              rw [hnil, List.length_nil, Nat.add_zero]
              exact hends
            · left
              omega
          · intro m hm
            have hm := h₁.sparseMax_le m hm
            change m ≤ s₁.fpos + (s₁.tf.next n).length
            omega
        simp only
        by_cases hnil : s₁.tf.next n = []
        · rw [if_pos hnil]
          rw [hnil, List.length_nil] at hlength
          have hend : s₁.fpos + (s₁.tf.next n).length = tf.length := by
            rw [hnil, List.length_nil]
            omega
          cases hfinish : CopyLoop.finish e { s₁ with
            tf := s₁.tf.advance n, dst, fpos := s₁.fpos + (s₁.tf.next n).length } with
          | none => trivial
          | some d => exact hcopied.finish hend hfinish
        · rw [if_neg hnil]
          refine ⟨hcopied, ?_⟩
          have hpositive := List.length_pos_iff.mpr hnil
          change tf.length - (s₁.fpos + (s₁.tf.next n).length) < _
          omega

theorem copied_start (h : ExtentsOf tf extents) : Copied tf extents (.start tf extents) :=
  ⟨rfl, rfl, rfl, Nat.zero_le _, h, fun _ _ => Nat.zero_le _, fun _ => rfl, le_refl _, .inl rfl,
    nofun⟩

end CopyLoop

theorem copyFile_copies (e : CopyFaults) {tf : List UInt8} {extents : List SSparseExtent}
    (h : ExtentsOf tf extents) :
    (∃ turns res, copyFile e turns tf extents = some res) ∧
      ∀ turns dst, copyFile e turns tf extents = some (some dst) → CopyOf tf dst := by
  have hends := @Loop.Ends.of_invariant _ _ (CopyLoop.turn e)
    (fun s => CopyLoop.Copied tf s.extents s) (fun res => ∀ dst, res = some dst → CopyOf tf dst)
    (fun s => tf.length - s.fpos) ?_ (.start tf extents) (CopyLoop.copied_start h)
  · obtain ⟨res, hres, hcopy⟩ := hends
    unfold copyFile
    by_cases hopen : e.openFails = true
    · simp only [if_pos hopen]
      exact ⟨⟨0, none, rfl⟩, nofun⟩
    · simp only [if_neg hopen]
      obtain ⟨turns, hturns⟩ := hres
      refine ⟨⟨turns, res, hturns⟩, ?_⟩
      intro turns' dst hdst
      exact hcopy dst (Loop.Ends.unique ⟨turns, hturns⟩ ⟨turns', hdst⟩)
  · intro s hs
    have hturn := @CopyLoop.Copied.turn e tf s hs
    cases hres : CopyLoop.turn e s with
    | inl res =>
      rw [hres] at hturn
      cases res with
      | none => exact nofun
      | some dst =>
        intro _ heq
        cases heq
        exact hturn
    | inr s' =>
      rw [hres] at hturn
      exact hturn

end UrBackup
