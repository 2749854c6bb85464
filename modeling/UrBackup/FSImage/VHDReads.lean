import Mathlib
import UrBackup.FSImage.VHDBlocks

/-! Reads of a virtual hard disk and the table of its blocks. A part of a block that is not in the
file is read without a look at the end of the disk. -/
namespace UrBackup.VHDFile

namespace Traced

variable {α β : Type} {x : Traced α} {f : α → Traced β} {P E : ReadEvent → Prop}
  {Q : α → Prop} {R : β → Prop}

/-- Something holds of all that happens. -/
def All (P : ReadEvent → Prop) (x : Traced α) : Prop := ∀ e ∈ x.events, P e

/-- If `P` holds of all that happens, then `E` does, and `Q` of the result. -/
def Spec (P E : ReadEvent → Prop) (x : Traced α) (Q : α → Prop) : Prop :=
  x.All P → x.All E ∧ ∀ a, x.result = some a → Q a

theorem bind_of_none (hx : x.result = none) : x >>= f = ⟨x.events, none⟩ := by
  simp only [bind, hx]

theorem bind_of_some {a : α} (hx : x.result = some a) :
    x >>= f = ⟨x.events ++ (f a).events, (f a).result⟩ := by
  simp only [bind, hx]

theorem all_bind : (x >>= f).All P ↔ x.All P ∧ ∀ a, x.result = some a → (f a).All P := by
  cases hx : x.result with
  | none =>
    rw [bind_of_none hx]
    simp [All]
  | some a =>
    rw [bind_of_some hx]
    simp [All, or_imp, forall_and]

theorem result_bind : (x >>= f).result = x.result.bind fun a => (f a).result := by
  cases hx : x.result with
  | none =>
    rw [bind_of_none hx]
    rfl
  | some a =>
    rw [bind_of_some hx]
    rfl

theorem Spec.bind (h : x.Spec P E Q) (hf : ∀ a, Q a → (f a).Spec P E R) :
    (x >>= f).Spec P E R := by
  intro hall
  rw [all_bind] at hall ⊢
  obtain ⟨hE, hQ⟩ := h hall.1
  refine ⟨⟨hE, fun a ha => (hf a (hQ a ha) (hall.2 a ha)).1⟩, ?_⟩
  intro b hb
  rw [result_bind] at hb
  obtain ⟨a, ha, hb⟩ := Option.bind_eq_some_iff.mp hb
  exact (hf a (hQ a ha) (hall.2 a ha)).2 b hb

theorem Spec.imp {Q' : α → Prop} (h : x.Spec P E Q) (himp : ∀ a, Q a → Q' a) : x.Spec P E Q' := by
  intro hall
  obtain ⟨hE, hQ⟩ := h hall
  exact ⟨hE, fun a ha => himp a (hQ a ha)⟩

theorem spec_pure {a : α} (h : Q a) : (pure a : Traced α).Spec P E Q := by
  refine fun _ => ⟨(fun _ he => by cases he), ?_⟩
  rintro a' ⟨⟩
  exact h

theorem spec_stuck : (stuck : Traced α).Spec P E Q :=
  fun _ => ⟨(fun _ he => by cases he), (fun _ ha => by cases ha)⟩

theorem all_event {e : ReadEvent} : (event e).All P ↔ P e := by
  simp [All, event]

theorem spec_event {e : ReadEvent} {Q : Unit → Prop} (h : P e → E e ∧ Q ()) :
    (event e).Spec P E Q := by
  intro hall
  obtain ⟨hE, hQ⟩ := h (all_event.mp hall)
  exact ⟨all_event.mpr hE, fun _ _ => hQ⟩

end Traced

namespace ReadEvent

/-- The table has the entry, and no more is counted than the disk has from the start on. -/
def Inside : ReadEvent → Prop
  | .lookup s block => block < s.bat.length
  | .hole _ _ _ _ => True
  | .counted s start => s.currOffset - start ≤ s.dstsize - start

/-- The table has the entries of the disk; the part of a block that is not in the file ends with the
disk, and if more is to be read then, the table goes on. -/
def Fits : ReadEvent → Prop
  | .lookup s block => s.currOffset < s.dstsize → block < s.bat.length
  | .hole s block want toread => s.currOffset + want ≤ s.dstsize ∧
      (want < toread ∧ 0 < want → s.currOffset + want < s.dstsize ∨
        (block + 1) % 2 ^ 32 < s.bat.length)
  | .counted _ _ => True

/-- The table has the entries of the disk that are looked up. -/
def LookupFits : ReadEvent → Prop
  | .lookup s block => s.currOffset < s.dstsize → block < s.bat.length
  | _ => True

end ReadEvent

/-- The table goes to the end of the disk. -/
def Covers (s : VHDFile) : Prop := s.dstsize ≤ s.bat.length * s.blocksize

/-- Only the position, and what is read to find a block, are others. -/
structure Advanced (s s' : VHDFile) (n : Nat) : Prop where
  bat : s'.bat = s.bat
  dstsize : s'.dstsize = s.dstsize
  blocksize : s'.blocksize = s.blocksize
  currOffset : s'.currOffset = s.currOffset + n

theorem Advanced.trans {s s' s'' : VHDFile} {m n : Nat} (h : Advanced s s' m)
    (h' : Advanced s' s'' n) : Advanced s s'' (m + n) := by
  refine ⟨h'.bat.trans h.bat, h'.dstsize.trans h.dstsize, h'.blocksize.trans h.blocksize, ?_⟩
  rw [h'.currOffset, h.currOffset, Nat.add_assoc]

section Rules

variable {P E : ReadEvent → Prop} {D : VHDFile → Prop} {pread : Reader} {start : Nat}
  {s : VHDFile} {parent : List VHDFile}

/-- What is known of the reads of a disk whose files are `D`. -/
def Reads (P E : ReadEvent → Prop) (D : VHDFile → Prop) (pread : Reader) : Prop :=
  ∀ disk pos n, (∀ s ∈ disk, D s) →
    (pread disk pos n).Spec P E fun r => r.2.1.length ≤ n ∧ ∀ s ∈ r.2.2, D s

theorem spec_readSector (hread : Reads P E D pread) (hparent : ∀ p ∈ parent, D p)
    (dataoffset blockoffset want : Nat) :
    (readSector pread s parent dataoffset blockoffset want).Spec P E fun r =>
      r.1.length ≤ want ∧ ∀ p ∈ r.2, D p := by
  unfold readSector
  split
  · apply Traced.spec_pure
    refine ⟨?_, hparent⟩
    rw [List.length_map, StoredFile.read_length]
    exact Nat.min_le_left _ _
  · split
    · apply Traced.spec_pure
      exact ⟨Nat.le_of_eq (List.length_replicate), hparent⟩
    · apply (hread parent s.currOffset want hparent).bind
      rintro ⟨ok, bytes, parent'⟩ h
      exact Traced.spec_pure h

theorem spec_readBase (hread : Reads P E D pread) (hparent : ∀ p ∈ parent, D p) (n : Nat) :
    (readBase pread s parent n).Spec P E fun r => r.1.length = n ∧ ∀ p ∈ r.2, D p := by
  unfold readBase
  split
  · apply Traced.spec_pure
    exact ⟨List.length_replicate, hparent⟩
  · apply (hread parent s.currOffset n hparent).bind
    rintro ⟨ok, bytes, parent'⟩ ⟨hle, hD⟩
    apply Traced.spec_pure
    refine ⟨?_, hD⟩
    rw [List.length_append, List.length_replicate]
    dsimp only at hle
    omega

/-- What the sectors of a block give. -/
structure SectorsRead (D : VHDFile → Prop) (s : VHDFile) (blockoffset toread : Nat)
    (r : ReadBytes × Nat × Bool × VHDFile × List VHDFile) : Prop where
  advanced : Advanced s r.2.2.2.1 r.1.length
  inside : r.1.length = 0 ∨ s.currOffset + r.1.length ≤ s.dstsize
  rest : r.1.length + r.2.1 = toread
  block : r.2.2.1 = false → r.2.1 ≠ 0 → s.blocksize ≤ blockoffset + r.1.length
  parent : ∀ p ∈ r.2.2.2.2, D p

theorem spec_readSectors (hread : Reads P E D pread)
    (hcounted : ∀ s : VHDFile, s.currOffset ≤ s.dstsize → E (.counted s start))
    {dataoffset blockoffset toread : Nat} {first : Bool} (hparent : ∀ p ∈ parent, D p) :
    (readSectors pread start s parent dataoffset blockoffset first toread).Spec P E
      (SectorsRead D s blockoffset toread) := by
  induction hn : toread using Nat.strongRecOn generalizing s parent blockoffset first toread with
  | ind n ih =>
    subst hn
    rw [readSectors]
    split
    · rename_i hin
      dsimp only
      split
      · apply Traced.spec_pure
        exact ⟨⟨rfl, rfl, rfl, rfl⟩, .inl rfl, Nat.zero_add _, by simp, hparent⟩
      · rename_i hend
        have hwant := sectorPart_le_length s.blocksize blockoffset toread first
        apply (spec_readSector hread hparent dataoffset blockoffset _).bind
        rintro ⟨bytes, parent'⟩ ⟨hbytes, hparent'⟩
        dsimp only at hbytes hparent' ⊢
        apply (Traced.spec_event (Q := fun _ => True) fun _ =>
          ⟨hcounted _ (by dsimp only; omega), trivial⟩).bind
        intro _ _
        split
        · rename_i hmore
          split
          · rename_i hprogress
            apply (ih _ (by omega) hparent' rfl).bind
            rintro ⟨more, rest, stop, s₂, parent₂⟩ ⟨hadvanced, hinside, hrest, hblock, hD⟩
            have hfirst : Advanced s { s with currOffset := s.currOffset + bytes.length }
                bytes.length := ⟨rfl, rfl, rfl, rfl⟩
            apply Traced.spec_pure
            refine ⟨?_, ?_, ?_, ?_, hD⟩ <;> dsimp only at * <;> rw [List.length_append]
            · exact hfirst.trans hadvanced
            · omega
            · omega
            · intro hstop hne
              have := hblock hstop hne
              omega
          · exact Traced.spec_stuck
        · rename_i hdone
          apply Traced.spec_pure
          refine ⟨⟨rfl, rfl, rfl, rfl⟩, .inr ?_, ?_, ?_, hparent'⟩ <;> dsimp only
          · omega
          · omega
          · intro _ hne
            omega
    · rename_i hin
      apply Traced.spec_pure
      exact ⟨⟨rfl, rfl, rfl, rfl⟩, .inl rfl, Nat.zero_add _, fun _ _ => Nat.not_lt.mp hin,
        hparent⟩

theorem advanced_fetchBitmap (s : VHDFile) (block dataoffset blockoffset bsize : Nat) :
    Advanced s (s.fetchBitmap block dataoffset blockoffset bsize).2 0 := by
  have hswitch : Advanced s (s.switchBitmap dataoffset) 0 := by
    unfold switchBitmap
    split <;> exact ⟨rfl, rfl, rfl, rfl⟩
  obtain ⟨hbat, hdstsize, hblocksize, hcurrOffset⟩ := hswitch
  unfold fetchBitmap
  split
  · exact ⟨rfl, rfl, rfl, rfl⟩
  · dsimp only
    split
    · exact ⟨hbat, hdstsize, hblocksize, hcurrOffset⟩
    · split <;> exact ⟨hbat, hdstsize, hblocksize, hcurrOffset⟩

/-- What the loop over the blocks keeps, in front of each block `I` and of the file at the end `K`. -/
structure BlocksRule (P E : ReadEvent → Prop) (start : Nat) (I : VHDFile → Nat → Nat → Prop)
    (K : VHDFile → Prop) : Prop where
  lookup : ∀ s block blockoffset, I s block blockoffset → P (.lookup s block) →
    E (.lookup s block)
  hole : ∀ s block blockoffset toread, I s block blockoffset → ∀ want s',
    want = min (s.blocksize - blockoffset) toread → Advanced s s' want →
    P (.hole s block want toread) → P (.counted s' start) →
    (want < toread ∧ 0 < want → P (.lookup s' ((block + 1) % 2 ^ 32))) →
    E (.hole s block want toread) ∧ E (.counted s' start) ∧ K s' ∧
      (want < toread ∧ 0 < want → I s' ((block + 1) % 2 ^ 32) 0)
  counted : ∀ s : VHDFile, s.currOffset ≤ s.dstsize → E (.counted s start)
  read : ∀ s block blockoffset, I s block blockoffset → ∀ n s', Advanced s s' n →
    (n = 0 ∨ s.currOffset + n ≤ s.dstsize) → K s' ∧
      (s.blocksize ≤ blockoffset + n → s'.currOffset < s'.dstsize →
        I s' ((block + 1) % 2 ^ 32) 0)

/-- What the blocks of a read give. -/
structure BlocksRead (D K : VHDFile → Prop) (s : VHDFile) (toread : Nat)
    (r : Bool × ReadBytes × VHDFile × List VHDFile) : Prop where
  advanced : Advanced s r.2.2.1 r.2.1.length
  le : r.2.1.length ≤ toread
  final : K r.2.2.1
  parent : ∀ p ∈ r.2.2.2, D p

theorem lookup_of_all {block blockoffset bsize toread : Nat} {first : Bool}
    (h : (readBlocks pread start s parent block blockoffset first bsize toread).All P) :
    P (.lookup s block) := by
  rw [readBlocks, Traced.all_bind] at h
  exact Traced.all_event.mp h.1

variable {I : VHDFile → Nat → Nat → Prop} {K : VHDFile → Prop}

theorem spec_readBlocks (hread : Reads P E D pread) (hrule : BlocksRule P E start I K)
    {block blockoffset bsize toread : Nat} {first : Bool} (hI : I s block blockoffset)
    (hparent : ∀ p ∈ parent, D p) :
    (readBlocks pread start s parent block blockoffset first bsize toread).Spec P E
      (BlocksRead D K s toread) := by
  induction hn : toread using Nat.strongRecOn
    generalizing s parent block blockoffset first toread with
  | ind n ih =>
    subst hn
    rw [readBlocks]
    apply (Traced.spec_event (Q := fun _ => True) fun h =>
      ⟨hrule.lookup s block blockoffset hI h, trivial⟩).bind
    intro _ _
    split
    · exact Traced.spec_stuck
    · rename_i batOff hbat
      split
      · -- the file does not have the block
        apply (spec_readBase hread hparent _).bind
        rintro ⟨bytes, parent'⟩ ⟨hlength, hparent'⟩
        dsimp only at hlength hparent' ⊢
        generalize hwant : min (s.blocksize - blockoffset) toread = want at hlength ⊢
        generalize hs' : ({ s with currOffset := s.currOffset + want } : VHDFile) = s'
        have hadvanced : Advanced s s' want := by
          rw [← hs']
          exact ⟨rfl, rfl, rfl, rfl⟩
        intro hall
        obtain ⟨hhole, hrest⟩ := Traced.all_bind.mp hall
        obtain ⟨hcounted, hrest⟩ := Traced.all_bind.mp (hrest () rfl)
        have hnext : want < toread ∧ 0 < want →
            P (.lookup s' ((block + 1) % 2 ^ 32)) := by
          intro hmore
          have hloop := hrest () rfl
          rw [dif_pos hmore] at hloop
          exact lookup_of_all (Traced.all_bind.mp hloop).1
        obtain ⟨hE, hE', hK, hI'⟩ := hrule.hole s block blockoffset toread hI want s' hwant.symm
          hadvanced (Traced.all_event.mp hhole) (Traced.all_event.mp hcounted) hnext
        refine Traced.Spec.bind (Traced.spec_event (Q := fun _ => True)
          fun _ => ⟨hE, trivial⟩) ?_ hall
        intro _ _
        apply (Traced.spec_event (Q := fun _ => True) fun _ => ⟨hE', trivial⟩).bind
        intro _ _
        split
        · rename_i hmore
          apply (ih _ (by omega) (hI' hmore) hparent' rfl).bind
          rintro ⟨ok, more, s₂, parent₂⟩ ⟨hadvanced₂, hle, hfinal, hD⟩
          apply Traced.spec_pure
          refine ⟨?_, ?_, hfinal, hD⟩ <;> dsimp only at * <;> rw [List.length_append, hlength]
          · exact hadvanced.trans hadvanced₂
          · omega
        · apply Traced.spec_pure
          refine ⟨?_, ?_, hK, hparent'⟩ <;> dsimp only <;> rw [hlength]
          · exact hadvanced
          · omega
      · -- the file has it
        dsimp only
        have hfetch := advanced_fetchBitmap s block (batOff * sectorSize) blockoffset bsize
        generalize s.fetchBitmap block (batOff * sectorSize) blockoffset bsize = fetched at hfetch ⊢
        obtain ⟨ok, s₁⟩ := fetched
        dsimp only at hfetch ⊢
        split
        · apply Traced.spec_pure
          exact ⟨hfetch, Nat.zero_le _, (hrule.read s block blockoffset hI 0 s₁ hfetch
            (.inl rfl)).1, hparent⟩
        · apply (spec_readSectors hread hrule.counted hparent).bind
          rintro ⟨bytes, rest, stop, s₂, parent₂⟩ ⟨hadvanced, hinside, hrest, hblock, hparent₂⟩
          dsimp only at hadvanced hinside hrest hblock hparent₂ ⊢
          have hboth := hfetch.trans hadvanced
          rw [Nat.zero_add] at hboth
          rw [hfetch.dstsize, hfetch.currOffset, Nat.add_zero] at hinside
          obtain ⟨hK, hI'⟩ := hrule.read s block blockoffset hI _ s₂ hboth hinside
          split
          · apply Traced.spec_pure
            exact ⟨hboth, by dsimp only; omega, hK, hparent₂⟩
          · rename_i hgoes
            split
            · rename_i hless
              rw [not_or, not_or] at hgoes
              obtain ⟨hstop, hne, hend⟩ := hgoes
              have hwhole := hblock (Bool.not_eq_true _ ▸ hstop) hne
              rw [hfetch.blocksize] at hwhole
              apply (ih _ hless (hI' hwhole (Nat.not_le.mp hend)) hparent₂ rfl).bind
              rintro ⟨ok', more, s₃, parent₃⟩ ⟨hadvanced₃, hle, hfinal, hD⟩
              apply Traced.spec_pure
              refine ⟨?_, ?_, hfinal, hD⟩ <;> dsimp only at * <;> rw [List.length_append]
              · exact hboth.trans hadvanced₃
              · omega
            · exact Traced.spec_stuck

/-- What the reads of a disk keep, at all depths. -/
structure ReadRule (P E : ReadEvent → Prop) (D : VHDFile → Prop)
    (I : Nat → VHDFile → Nat → Nat → Prop) (K : VHDFile → Prop) : Prop where
  same : ∀ s s' : VHDFile, s'.bat = s.bat → s'.dstsize = s.dstsize → s'.blocksize = s.blocksize →
    D s → D s'
  start : ∀ (s : VHDFile) pos, D s → pos < s.dstsize →
    I pos (s.seek pos) (pos / s.blocksize % 2 ^ 32) (pos % s.blocksize)
  blocks : ∀ start, BlocksRule P E start (I start) K

variable {I : Nat → VHDFile → Nat → Nat → Prop}

/-- What a read gives of a file over its parents. -/
structure DiskRead (D K : VHDFile → Prop) (s : VHDFile) (pos n : Nat)
    (r : Bool × ReadBytes × List VHDFile) : Prop where
  le : r.2.1.length ≤ n
  disk : ∀ p ∈ r.2.2, D p
  final : r.2.1 = [] ∨ ∃ s', Advanced (s.seek pos) s' r.2.1.length ∧ K s'

theorem spec_read (hrule : ReadRule P E D I K) {depth : Nat} (hread : Reads P E D (readDepth depth))
    (hs : D s) (hparent : ∀ p ∈ parent, D p) (pos n : Nat) :
    (readDepth (depth + 1) (s :: parent) pos n).Spec P E (DiskRead D K s pos n) := by
  rw [readDepth]
  split
  · apply Traced.spec_pure
    refine ⟨Nat.zero_le _, ?_, .inl rfl⟩
    intro p hp
    rcases List.mem_cons.mp hp with rfl | hp
    · exact hrule.same s _ rfl rfl rfl hs
    · exact hparent p hp
  · rename_i hlt
    have hI := hrule.start s pos hs (Nat.not_le.mp hlt)
    apply (spec_readBlocks hread (hrule.blocks pos) hI hparent).bind
    rintro ⟨ok, bytes, s', parent'⟩ ⟨hadvanced, hle, hfinal, hD⟩
    apply Traced.spec_pure
    refine ⟨hle, ?_, .inr ⟨s', hadvanced, hfinal⟩⟩
    intro p hp
    rcases List.mem_cons.mp hp with rfl | hp
    · exact hrule.same s _ hadvanced.bat hadvanced.dstsize hadvanced.blocksize hs
    · exact hD p hp

theorem reads_readDepth (hrule : ReadRule P E D I K) (depth : Nat) :
    Reads P E D (readDepth depth) := by
  induction depth with
  | zero => exact fun disk pos n _ => Traced.spec_stuck
  | succ depth ih =>
    intro disk pos n hdisk
    cases disk with
    | nil => exact Traced.spec_stuck
    | cons s parent =>
      apply (spec_read hrule ih (hdisk s List.mem_cons_self)
        (fun p hp => hdisk p (List.mem_cons_of_mem _ hp)) pos n).imp
      intro r hr
      exact ⟨hr.le, hr.disk⟩

end Rules

section Inside

/-- What holds in front of a block of a read whose turns fit. -/
def AtBlock (_ : Nat) (s : VHDFile) (block _ : Nat) : Prop :=
  s.currOffset < s.dstsize ∨ (s.currOffset ≤ s.dstsize ∧ block < s.bat.length)

theorem insideRule : ReadRule ReadEvent.Fits ReadEvent.Inside (fun _ => True) AtBlock
    fun s => s.currOffset ≤ s.dstsize := by
  refine ⟨fun _ _ _ _ _ _ => trivial, fun s pos _ hlt => .inl hlt, fun start => ⟨?_, ?_, ?_, ?_⟩⟩
  · intro s block blockoffset hI hfits
    rcases hI with hlt | ⟨-, hblock⟩
    · exact hfits hlt
    · exact hblock
  · rintro s block blockoffset toread hI want s' hwant hadvanced ⟨hend, hmore⟩ - -
    obtain ⟨hbat, hdstsize, -, hcurrOffset⟩ := hadvanced
    refine ⟨trivial, ?_, by omega, ?_⟩
    · change s'.currOffset - start ≤ s'.dstsize - start
      omega
    · intro hgoes
      unfold AtBlock
      rw [hbat, hdstsize, hcurrOffset]
      rcases hmore hgoes with hlt | hblock
      · exact .inl hlt
      · exact .inr ⟨hend, hblock⟩
  · intro s hle
    exact Nat.sub_le_sub_right hle start
  · rintro s block blockoffset hI n s' ⟨hbat, hdstsize, -, hcurrOffset⟩ hn
    refine ⟨?_, fun _ hlt => .inl hlt⟩
    have hle : s.currOffset ≤ s.dstsize := by
      rcases hI with hlt | ⟨hle, -⟩
      · exact Nat.le_of_lt hlt
      · exact hle
    omega

theorem fitsRule : ReadRule ReadEvent.Inside ReadEvent.Fits (fun _ => True)
    (fun start s _ _ => start ≤ s.currOffset ∧ start ≤ s.dstsize) fun _ => True := by
  refine ⟨fun _ _ _ _ _ _ => trivial, fun s pos _ hlt => ⟨Nat.le_refl _, Nat.le_of_lt hlt⟩,
    fun start => ⟨?_, ?_, ?_, ?_⟩⟩
  · exact fun s block blockoffset _ hinside _ => hinside
  · rintro s block blockoffset toread ⟨hstart, hstart'⟩ want s' hwant hadvanced - hcounted hlookup
    obtain ⟨hbat, hdstsize, -, hcurrOffset⟩ := hadvanced
    change s'.currOffset - start ≤ s'.dstsize - start at hcounted
    refine ⟨⟨by omega, ?_⟩, trivial, trivial, fun _ => ⟨by omega, by omega⟩⟩
    intro hgoes
    have hblock : (block + 1) % 2 ^ 32 < s'.bat.length := hlookup hgoes
    rw [hbat] at hblock
    exact .inr hblock
  · exact fun _ _ => trivial
  · rintro s block blockoffset ⟨hstart, hstart'⟩ n s' ⟨-, hdstsize, -, hcurrOffset⟩ -
    exact ⟨trivial, fun _ _ => ⟨by omega, by omega⟩⟩

theorem coversRule : ReadRule (fun _ => True) ReadEvent.LookupFits Covers
    (fun _ s block blockoffset => Covers s ∧ block * s.blocksize + blockoffset ≤ s.currOffset)
    fun _ => True := by
  have hnext : ∀ (s s' : VHDFile) (block blockoffset n : Nat), Covers s →
      block * s.blocksize + blockoffset ≤ s.currOffset → Advanced s s' n →
      s.blocksize ≤ blockoffset + n → Covers s' ∧
        (block + 1) % 2 ^ 32 * s'.blocksize + 0 ≤ s'.currOffset := by
    rintro s s' block blockoffset n hcovers hle ⟨hbat, hdstsize, hblocksize, hcurrOffset⟩ hn
    have hmod := Nat.mul_le_mul_right s.blocksize (Nat.mod_le (block + 1) (2 ^ 32))
    rw [Nat.add_mul, Nat.one_mul] at hmod
    refine ⟨?_, ?_⟩
    · unfold Covers
      rw [hbat, hdstsize, hblocksize]
      exact hcovers
    · rw [hblocksize, hcurrOffset]
      omega
  refine ⟨?_, ?_, fun start => ⟨?_, ?_, ?_, ?_⟩⟩
  · intro s s' hbat hdstsize hblocksize hcovers
    unfold Covers
    rw [hbat, hdstsize, hblocksize]
    exact hcovers
  · intro s pos hcovers _
    refine ⟨hcovers, ?_⟩
    have hmod := Nat.mul_le_mul_right s.blocksize (Nat.mod_le (pos / s.blocksize) (2 ^ 32))
    have hsplit := Nat.div_add_mod' pos s.blocksize
    change pos / s.blocksize % 2 ^ 32 * s.blocksize + pos % s.blocksize ≤ pos
    omega
  · rintro s block blockoffset ⟨hcovers, hle⟩ - hlt
    unfold Covers at hcovers
    have hless : block * s.blocksize < s.bat.length * s.blocksize := by omega
    exact Nat.lt_of_mul_lt_mul_right hless
  · rintro s block blockoffset toread ⟨hcovers, hle⟩ want s' hwant hadvanced - - -
    refine ⟨trivial, trivial, trivial, fun hgoes => ?_⟩
    exact hnext s s' block blockoffset want hcovers hle hadvanced (by omega)
  · exact fun _ _ => trivial
  · rintro s block blockoffset ⟨hcovers, hle⟩ n s' hadvanced -
    exact ⟨trivial, fun hn _ => hnext s s' block blockoffset n hcovers hle hadvanced hn⟩

/-- The number of bytes that a read reports is at most what the disk has from there on. -/
def ReportsInside (disk : List VHDFile) (pos n : Nat) : Prop :=
  ∀ s ∈ disk.head?, ∀ r, (Read disk pos n).result = some r → r.2.1.length ≤ s.dstsize - pos

/-- A read stays in the tables and counts no more than the disks have exactly if its turns fit. Of
disks whose tables go to their ends that is a condition on the blocks that are not in the files. -/
theorem read_inside_iff (disk : List VHDFile) (pos n : Nat) :
    ((Read disk pos n).All ReadEvent.Inside ∧ ReportsInside disk pos n ↔
      (Read disk pos n).All ReadEvent.Fits) ∧
    ((∀ s ∈ disk, Covers s) → (Read disk pos n).All ReadEvent.LookupFits) := by
  refine ⟨⟨?_, ?_⟩, ?_⟩
  · rintro ⟨hinside, -⟩
    exact (reads_readDepth fitsRule disk.length disk pos n (fun _ _ => trivial) hinside).1
  · intro hfits
    refine ⟨(reads_readDepth insideRule disk.length disk pos n (fun _ _ => trivial) hfits).1, ?_⟩
    intro s hs r hr
    cases disk with
    | nil => cases hs
    | cons s' parent =>
      cases hs
      have hread : (readDepth (parent.length + 1) (s :: parent) pos n).Spec ReadEvent.Fits
          ReadEvent.Inside (DiskRead (fun _ => True) (fun s => s.currOffset ≤ s.dstsize) s pos n) :=
        spec_read insideRule (reads_readDepth insideRule parent.length) trivial
          (fun _ _ => trivial) pos n
      rcases ((hread hfits).2 r hr).final with hnil | ⟨s', hadvanced, hle⟩
      · rw [hnil]
        exact Nat.zero_le _
      · have hpos : s'.currOffset = pos + r.2.1.length := hadvanced.currOffset
        have hdstsize : s'.dstsize = s.dstsize := hadvanced.dstsize
        omega
  · intro hcovers
    exact (reads_readDepth coversRule disk.length disk pos n hcovers fun _ _ => trivial).1

end Inside

section Create

theorem writeFooter_fields (s : VHDFile) : s.writeFooter.bat = s.bat ∧
    s.writeFooter.dstsize = s.dstsize ∧ s.writeFooter.blocksize = s.blocksize := by
  unfold writeFooter
  dsimp only
  split <;> exact ⟨rfl, rfl, rfl⟩

theorem create_fields (compressed fastMode : Bool) (stamp : VHDStamp) (dstsize blocksize : Nat)
    (hpos : 0 < blocksize) :
    (create compressed fastMode stamp dstsize blocksize hpos).bat =
        List.replicate (newBatsize dstsize blocksize) noBlock ∧
      (create compressed fastMode stamp dstsize blocksize hpos).dstsize = dstsize ∧
      (create compressed fastMode stamp dstsize blocksize hpos).blocksize = blocksize :=
  writeFooter_fields _

theorem le_newBatsize {dstsize blocksize : Nat} (hpos : 0 < blocksize)
    (h : dstsize / blocksize + 1 < 2 ^ 32) :
    dstsize ≤ newBatsize dstsize blocksize * blocksize := by
  have hsplit := Nat.div_add_mod' dstsize blocksize
  have hmod := Nat.mod_lt dstsize hpos
  unfold newBatsize
  rw [Nat.mod_eq_of_lt (by omega : dstsize / blocksize < 2 ^ 32)]
  split
  · rw [Nat.mod_eq_of_lt h, Nat.add_mul, Nat.one_mul]
    omega
  · rw [Nat.add_zero, Nat.mod_eq_of_lt (by omega)]
    omega

theorem covers_create (compressed fastMode : Bool) (stamp : VHDStamp) {dstsize blocksize : Nat}
    (hpos : 0 < blocksize) (h : dstsize / blocksize + 1 < 2 ^ 32) :
    Covers (create compressed fastMode stamp dstsize blocksize hpos) := by
  obtain ⟨hbat, hdstsize, hblocksize⟩ :=
    create_fields compressed fastMode stamp dstsize blocksize hpos
  unfold Covers
  rw [hbat, hdstsize, hblocksize, List.length_replicate]
  exact le_newBatsize hpos h

end Create

section Example

variable {P : ReadEvent → Prop} {pread : Reader} {start : Nat} {s : VHDFile}
  {block blockoffset bsize toread : Nat} {first : Bool}

theorem hole_of_all (hbat : s.bat[block]? = some noBlock)
    (h : (readBlocks pread start s [] block blockoffset first bsize toread).All P) :
    P (.hole s block (min (s.blocksize - blockoffset) toread) toread) := by
  rw [readBlocks, Traced.all_bind] at h
  have hrest := h.2 () rfl
  simp only [hbat, if_true] at hrest
  rw [Traced.all_bind] at hrest
  have hhole := hrest.2 (List.replicate (min (s.blocksize - blockoffset) toread) (some 0), []) rfl
  rw [Traced.all_bind] at hhole
  exact Traced.all_event.mp hhole.1

theorem result_hole (hbat : s.bat[block]? = some noBlock)
    (hle : toread ≤ s.blocksize - blockoffset) :
    (readBlocks pread start s [] block blockoffset first bsize toread).result =
      some (true, List.replicate toread (some 0), { s with currOffset := s.currOffset + toread },
        []) := by
  rw [readBlocks, Traced.result_bind]
  simp only [Traced.event, Option.bind_some, hbat, if_true, Nat.min_eq_right hle]
  rw [Traced.result_bind]
  change (Traced.result _) = _
  rw [Traced.result_bind]
  change (Traced.result _) = _
  rw [Traced.result_bind]
  change (Traced.result _) = _
  rw [dif_neg (by omega)]
  rfl

def newDisk (dstsize blocksize : Nat) (hpos : 0 < blocksize) : VHDFile :=
  create false false ⟨0, 0, Vector.replicate 16 0⟩ dstsize blocksize hpos

theorem newDisk_fields (dstsize blocksize : Nat) (hpos : 0 < blocksize) :
    (newDisk dstsize blocksize hpos).bat =
        List.replicate (newBatsize dstsize blocksize) noBlock ∧
      (newDisk dstsize blocksize hpos).dstsize = dstsize ∧
      (newDisk dstsize blocksize hpos).blocksize = blocksize := create_fields _ _ _ _ _ _

theorem read_single {s : VHDFile} (hdstsize : 0 < s.dstsize) (n : Nat) : Read [s] 0 n =
    (readBlocks (readDepth 0) 0 (s.seek 0) [] 0 0 true n n >>=
      fun (ok, bytes, s, parent) => pure (ok, bytes, s :: parent)) := by
  change readDepth 1 [s] 0 n = _
  rw [readDepth, if_neg (Nat.not_le.mpr hdstsize), Nat.zero_div, Nat.zero_mod, Nat.zero_mod]

/-- A read of two sectors from a disk of one sector looks up the block behind the table; one from a
disk that is half a block reports both. -/
theorem read_leaves_table :
    ¬ (Read [newDisk 512 512 (by decide)] 0 1024).All ReadEvent.Inside ∧
    ¬ ReportsInside [newDisk 512 1024 (by decide)] 0 1024 := by
  constructor
  · obtain ⟨hbat, hdstsize, hblocksize⟩ := newDisk_fields 512 512 (by decide)
    generalize newDisk 512 512 _ = s at hbat hdstsize hblocksize ⊢
    intro hinside
    have hfits : (Read [s] 0 1024).All ReadEvent.Fits :=
      (reads_readDepth fitsRule 1 [s] 0 1024 (fun _ _ => trivial) hinside).1
    rw [read_single (by omega), Traced.all_bind] at hfits
    have hentry : (s.seek 0).bat[0]? = some noBlock := by
      change s.bat[0]? = _
      rw [hbat]
      decide
    obtain ⟨-, hmore⟩ := hole_of_all hentry hfits.1
    have hwant : min ((s.seek 0).blocksize - 0) 1024 = 512 := by
      change min (s.blocksize - 0) 1024 = 512
      rw [hblocksize]
      decide
    rw [hwant] at hmore
    rcases hmore (by decide) with hless | hblock
    · change 0 + 512 < s.dstsize at hless
      omega
    · change (0 + 1) % 2 ^ 32 < s.bat.length at hblock
      rw [hbat] at hblock
      exact absurd hblock (by decide)
  · obtain ⟨hbat, hdstsize, hblocksize⟩ := newDisk_fields 512 1024 (by decide)
    generalize newDisk 512 1024 _ = s at hbat hdstsize hblocksize ⊢
    intro hreports
    have hentry : (s.seek 0).bat[0]? = some noBlock := by
      change s.bat[0]? = _
      rw [hbat]
      decide
    have hresult : (Read [s] 0 1024).result = some (true, List.replicate 1024 (some 0),
        [{ s.seek 0 with currOffset := 0 + 1024 }]) := by
      rw [read_single (by omega), Traced.result_bind,
        result_hole hentry (Nat.le_of_eq hblocksize.symm)]
      rfl
    have hle := hreports s rfl _ hresult
    rw [List.length_replicate, hdstsize] at hle
    exact absurd hle (by decide)

/-- A read of a disk of one sector. -/
theorem read_inside_iff_newDisk :
    ((Read [newDisk 512 512 (by decide)] 0 512).All ReadEvent.Inside ∧
        ReportsInside [newDisk 512 512 (by decide)] 0 512 ↔
      (Read [newDisk 512 512 (by decide)] 0 512).All ReadEvent.Fits) ∧
    (Read [newDisk 512 512 (by decide)] 0 512).All ReadEvent.LookupFits := by
  obtain ⟨hinside, hlookup⟩ := read_inside_iff [newDisk 512 512 (by decide)] 0 512
  refine ⟨hinside, hlookup ?_⟩
  intro s hs
  rw [List.mem_singleton.mp hs]
  exact covers_create false false _ _ (by decide)

end Example

end UrBackup.VHDFile
