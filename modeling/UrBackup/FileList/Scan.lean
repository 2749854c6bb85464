import Mathlib.Data.List.TakeWhile
import UrBackup.FileList.TreeReader

/-! What the passes of the reader and the parser make of one item of the list. -/
namespace UrBackup

open TransitionSystem

namespace FileList

section Bytes

theorem ne_of_mem_digits_zero {c b : UInt8} (h : c ∈ Decimal.digits 0) (hb : b ≠ 48) : c ≠ b := by
  have hzero : c = 48 := List.mem_singleton.mp h
  rw [hzero]
  exact hb.symm

theorem isDigit_ne {ch : UInt8} (h : Decimal.isDigit ch = true) :
    ch ≠ newline ∧ ch ≠ space ∧ ch ≠ numberSign ∧ ch ≠ minus ∧ ch ≠ plus := by
  refine ⟨?_, ?_, ?_, ?_, ?_⟩ <;> (rintro rfl; cases h)

theorem ne_of_mem_convert {i : Int64} {ch : UInt8} (h : ch ∈ convert i) :
    ch ≠ newline ∧ ch ≠ space ∧ ch ≠ numberSign := by
  have hdigits : ∀ n, ch ∈ Decimal.digits n → ch ≠ newline ∧ ch ≠ space ∧ ch ≠ numberSign := by
    intro n hn
    obtain ⟨h₁, h₂, h₃, -⟩ := isDigit_ne (Decimal.isDigit_of_mem_digits hn)
    exact ⟨h₁, h₂, h₃⟩
  unfold convert at h
  split at h
  · rcases List.mem_cons.mp h with rfl | h
    · exact ⟨by decide, by decide, by decide⟩
    · exact hdigits _ h
  · exact hdigits _ h

theorem digits_ne_nil (n : Nat) : Decimal.digits n ≠ [] := by
  unfold Decimal.digits
  split
  · exact List.cons_ne_nil _ _
  · rename_i hn
    intro h
    rw [List.reverse_eq_nil_iff, List.map_eq_nil_iff, Nat.digits_eq_nil_iff_eq_zero] at h
    exact hn h

theorem takeWhile_digits (n : Nat) :
    (Decimal.digits n).takeWhile Decimal.isDigit = Decimal.digits n :=
  List.takeWhile_eq_self_iff.mpr fun _ h => Decimal.isDigit_of_mem_digits h

theorem head_digits (n : Nat) : ∃ ch rest, Decimal.digits n = ch :: rest ∧
    Decimal.isDigit ch = true := by
  obtain ⟨ch, rest, h⟩ := List.exists_cons_of_ne_nil (digits_ne_nil n)
  exact ⟨ch, rest, h, Decimal.isDigit_of_mem_digits (by rw [h]; exact List.mem_cons_self)⟩

theorem not_isSpace_of_isDigit {ch : UInt8} (h : Decimal.isDigit ch = true) :
    isSpace ch = false := by
  have hspace := (isDigit_ne h).2.1
  rw [Decimal.isDigit, Bool.and_eq_true, decide_eq_true_eq] at h
  rw [isSpace, decide_eq_false hspace, Bool.false_or, Bool.and_eq_false_iff]
  refine .inr (decide_eq_false ?_)
  have h13 : (13 : UInt8) < 48 := by decide
  exact UInt8.not_le.mpr (UInt8.lt_of_lt_of_le h13 h.1)

theorem clamp_natAbs (i : Int64) : clamp (decide (i.toInt < 0)) i.toInt.natAbs = i := by
  have hlow := i.le_toInt
  have hhigh := i.toInt_lt
  have hself := Int64.ofInt_toInt i
  unfold clamp
  split
  · rename_i hneg
    rw [decide_eq_true_eq] at hneg
    rw [Nat.min_eq_left (by omega), show -((i.toInt.natAbs : Nat) : Int) = i.toInt by omega, hself]
  · rename_i hneg
    rw [decide_eq_true_eq] at hneg
    rw [Nat.min_eq_left (by omega), show ((i.toInt.natAbs : Nat) : Int) = i.toInt by omega, hself]

theorem osAtoi64_convert (i : Int64) : osAtoi64 (convert i) = i := by
  have hclamp := clamp_natAbs i
  obtain ⟨ch, rest, hdigits, hdigit⟩ := head_digits i.toInt.natAbs
  have hne := isDigit_ne hdigit
  unfold osAtoi64 convert
  split
  · rename_i hneg
    rw [decide_eq_true hneg] at hclamp
    have hspace : isSpace minus = false := by decide
    simp only [List.dropWhile_cons_of_neg, hspace, Bool.false_eq_true, not_false_eq_true,
      List.head?_cons, true_or, if_true, List.tail_cons, takeWhile_digits,
      Decimal.ofDigits_digits, decide_true]
    exact hclamp
  · rename_i hneg
    rw [decide_eq_false hneg] at hclamp
    have hdrop : (Decimal.digits i.toInt.natAbs).dropWhile isSpace =
        Decimal.digits i.toInt.natAbs := by
      rw [hdigits, List.dropWhile_cons_of_neg (by simp [not_isSpace_of_isDigit hdigit])]
    have hhead : (Decimal.digits i.toInt.natAbs).head? = some ch := by
      rw [hdigits, List.head?_cons]
    simp only [hdrop, hhead, Option.some.injEq, hne.2.2.2.1, hne.2.2.2.2, or_self, if_false,
      takeWhile_digits, Decimal.ofDigits_digits, decide_false]
    exact hclamp

end Bytes

section Run

variable {σ : Type*} {step : σ → UInt8 → Option σ}

theorem run_collect (P : UInt8 → Prop) (at_ : List UInt8 → σ)
    (hstep : ∀ acc ch, P ch → step (at_ acc) ch = some (at_ (acc ++ [ch]))) {bs : List UInt8}
    (hbs : ∀ ch ∈ bs, P ch) (acc : List UInt8) : run step (at_ acc) bs = some (at_ (acc ++ bs)) := by
  induction bs generalizing acc with
  | nil => rw [List.append_nil, run_nil]
  | cons ch bs ih =>
    rw [run, hstep acc ch (hbs ch List.mem_cons_self), Option.bind_some,
      ih (fun ch h => hbs ch (List.mem_cons_of_mem _ h)), List.append_assoc, List.singleton_append]

theorem run_escapeListName (nameAt escAt : List UInt8 → σ)
    (hplain : ∀ acc ch, ch ≠ quote → ch ≠ backslash →
      step (nameAt acc) ch = some (nameAt (acc ++ [ch])))
    (hback : ∀ acc, step (nameAt acc) backslash = some (escAt acc))
    (hesc : ∀ acc ch, ch = quote ∨ ch = backslash →
      step (escAt acc) ch = some (nameAt (acc ++ [ch]))) (name acc : List UInt8) :
    run step (nameAt acc) (escapeListName name) = some (nameAt (acc ++ name)) := by
  induction name generalizing acc with
  | nil =>
    rw [List.append_nil]
    rfl
  | cons ch name ih =>
    have hchar : run step (nameAt acc) (escapeChar ch) = some (nameAt (acc ++ [ch])) := by
      unfold escapeChar
      split
      · rename_i hquote
        rw [run, hback, Option.bind_some, run, hesc acc quote (.inl rfl), hquote]
        rfl
      · split
        · rename_i hbackslash
          rw [run, hback, Option.bind_some, run, hesc acc backslash (.inr rfl), hbackslash]
          rfl
        · rename_i hquote hbackslash
          rw [run, hplain acc ch hquote hbackslash]
          rfl
    rw [escapeListName, List.flatMap_cons]
    apply run_trans hchar
    rw [← escapeListName, ih, List.append_assoc, List.singleton_append]

end Run

def itemBody (name size : List UInt8) (lastModified : Int64) : List UInt8 :=
  [quote] ++ (escapeListName name ++ ([quote, space] ++ (size ++ ([space] ++
    (convert lastModified ++ [newline])))))

theorem writeFileItem_file (name : List UInt8) (size lastModified : Int64) :
    writeFileItem ⟨name, size, lastModified, false⟩ =
      typeFile :: itemBody name (convert size) lastModified := by
  simp [writeFileItem, itemBody]

theorem writeFileItem_dir {name : List UInt8} (h : name ≠ dotDot) (size lastModified : Int64) :
    writeFileItem ⟨name, size, lastModified, true⟩ =
      typeDir :: itemBody name (Decimal.digits 0) lastModified := by
  simp [writeFileItem, itemBody, h]

theorem writeFileItem_up (size lastModified : Int64) :
    writeFileItem ⟨dotDot, size, lastModified, true⟩ = [typeUp, newline] := by
  simp [writeFileItem]

end FileList

namespace ListReader

open FileList

variable (parse : List UInt8 → ExtraParams) (p : FileListParser) (entries : List SFile)

def between (p : FileListParser) : FileListParser := { p with state := .type, tName := [] }

theorem run_body {isdir : Bool} {name size : List UInt8} (hname : isdir = true → name ≠ dotDot)
    (hsize : ∀ ch ∈ size, ch ≠ space) (lastModified : Int64) :
    run (read parse) ⟨{ p with state := .quote, tName := [], data := { p.data with isdir } }, entries⟩
      (itemBody name size lastModified) =
      some ⟨{ between p with
          data := ⟨name, osAtoi64 size, lastModified, isdir⟩, extra := p.extra.map fun _ => [] },
        entries ++ [⟨name, osAtoi64 size, lastModified, isdir⟩]⟩ := by
  let nameAt (acc : List UInt8) : ListReader :=
    ⟨{ p with state := .name, tName := acc, data := { p.data with isdir } }, entries⟩
  let escAt (acc : List UInt8) : ListReader :=
    ⟨{ p with state := .nameEscape, tName := acc, data := { p.data with isdir } }, entries⟩
  let sizeAt (acc : List UInt8) : ListReader :=
    ⟨{ p with state := .filesize, tName := acc, data := { p.data with isdir, name } }, entries⟩
  let timeAt (acc : List UInt8) : ListReader :=
    ⟨{ p with state := .modifiedTime, tName := acc,
              data := { p.data with isdir, name, size := osAtoi64 size } }, entries⟩
  have hnameRun : run (read parse) (nameAt []) (escapeListName name) = some (nameAt name) := by
    refine run_escapeListName nameAt escAt ?_ ?_ ?_ name []
    · intro acc ch hquote hback
      simp [read, FileListParser.nextEntry, nameAt, hquote, hback]
    · intro acc
      simp [read, FileListParser.nextEntry, nameAt, escAt, show backslash ≠ quote by decide]
    · intro acc ch hch
      simp only [read, FileListParser.nextEntry, nameAt, escAt]
      rw [if_neg]
      · rfl
      · rintro ⟨hquote, hback⟩
        exact hch.elim hquote hback
  have hend : run (read parse) (nameAt name) [quote, space] = some (sizeAt []) := by
    have hdir : ¬ (isdir = true ∧ name = dotDot) := fun h => hname h.1 h.2
    simp [run, read, FileListParser.nextEntry, FileListParser.nameFinish, nameAt, sizeAt, hdir,
      show space ≠ quote by decide, show space ≠ newline by decide]
  have hsizeRun : run (read parse) (sizeAt []) size = some (sizeAt size) := by
    refine run_collect (· ≠ space) sizeAt ?_ hsize []
    intro acc ch hch
    simp [read, FileListParser.nextEntry, sizeAt, hch]
  have hspace : run (read parse) (sizeAt size) [space] = some (timeAt []) := by
    simp [run, read, FileListParser.nextEntry, sizeAt, timeAt]
  have htimeRun : run (read parse) (timeAt []) (convert lastModified) =
      some (timeAt (convert lastModified)) := by
    refine run_collect (fun ch => ch ≠ newline ∧ ch ≠ numberSign) timeAt ?_ ?_ []
    · rintro acc ch ⟨hnewline, hsign⟩
      simp [read, FileListParser.nextEntry, timeAt, hnewline, hsign]
    · intro ch hch
      exact ⟨(ne_of_mem_convert hch).1, (ne_of_mem_convert hch).2.2⟩
  refine run_trans (t := nameAt []) rfl (run_trans hnameRun (run_trans hend (run_trans hsizeRun
    (run_trans hspace (run_trans htimeRun ?_)))))
  simp [run, read, FileListParser.nextEntry, FileListParser.finish, FileListParser.reset, timeAt,
    between, osAtoi64_convert]

theorem run_item {cf : SFile} (hdir : cf.isdir = true → cf.size = 0)
    (hup : cf.isdir = true → cf.name = dotDot → cf.lastModified = 0) :
    ∃ p', run (read parse) ⟨between p, entries⟩ (writeFileItem cf) =
      some ⟨between p', entries ++ [cf]⟩ := by
  obtain ⟨name, size, lastModified, isdir⟩ := cf
  cases isdir with
  | false =>
    have hsize : ∀ ch ∈ convert size, ch ≠ space := fun ch h => (ne_of_mem_convert h).2.1
    have hbody := run_body parse p entries (show false = true → name ≠ dotDot from nofun) hsize
      lastModified
    rw [osAtoi64_convert] at hbody
    rw [writeFileItem_file]
    exact ⟨{ p with data := ⟨name, size, lastModified, false⟩, extra := p.extra.map fun _ => [] },
      hbody⟩
  | true =>
    cases hdir rfl
    by_cases hname : name = dotDot
    · cases hup rfl hname
      subst hname
      rw [writeFileItem_up]
      exact ⟨{ p with data := ⟨dotDot, 0, 0, true⟩, extra := p.extra.map fun _ => [] }, rfl⟩
    · have hzero := fun ch h => ne_of_mem_digits_zero (c := ch) h (show space ≠ 48 by decide)
      have hbody := run_body parse p entries (show true = true → name ≠ dotDot from fun _ => hname) hzero
        lastModified
      rw [writeFileItem_dir hname]
      exact ⟨{ p with data := ⟨name, 0, lastModified, true⟩, extra := p.extra.map fun _ => [] },
        hbody⟩

end ListReader

namespace CountPass

open FileList

def itemSize (cf : SFile) : Nat :=
  if cf.isdir then cf.name.length + 9 else cf.name.length + 17

theorem run_body (s : CountPass) (hname : s.name = []) (name : List UInt8) {size : List UInt8}
    (hsize : ∀ ch ∈ size, ch ≠ newline) (lastModified : Int64) :
    run step { s with state := .quote } (itemBody name size lastModified) =
      some (finish { s with state := .data, name }) := by
  let nameAt (acc : List UInt8) : CountPass := { s with state := .name, name := acc }
  let escAt (acc : List UInt8) : CountPass := { s with state := .escape, name := acc }
  have hnameRun : run step (nameAt []) (escapeListName name) = some (nameAt name) := by
    refine run_escapeListName nameAt escAt ?_ ?_ ?_ name []
    · intro acc ch hquote hback
      simp [step, nameAt, hquote, hback]
    · intro acc
      simp [step, nameAt, escAt, show backslash ≠ quote by decide]
    · intro acc ch hch
      simp only [step, nameAt, escAt]
      rw [if_neg]
      rintro ⟨hquote, hback⟩
      exact hch.elim hquote hback
  have hdata : ∀ bs, (∀ ch ∈ bs, ch ≠ newline) →
      run step { s with state := .data, name } bs = some { s with state := .data, name } := by
    intro bs hbs
    refine run_collect (· ≠ newline) (fun _ => { s with state := .data, name }) ?_ hbs []
    intro acc ch hch
    simp [step, hch]
  refine run_trans (t := nameAt []) ?_ (run_trans hnameRun (run_trans
    (t := { s with state := .data, name }) ?_ (run_trans (hdata size hsize) (run_trans
    (t := { s with state := .data, name }) ?_ (run_trans (hdata _ ?_) ?_)))))
  · simp [run, step, nameAt, hname]
  · simp [run, step, nameAt, show space ≠ quote by decide]
  · simp [run, step, show space ≠ newline by decide]
  · exact fun ch h => (ne_of_mem_convert h).1
  · simp [run, step]

theorem run_item {cf : SFile} (hfile : cf.isdir = false → cf.name ≠ dotDot) (lines size : Nat) :
    run step ⟨.type, [], 0, lines, size⟩ (writeFileItem cf) =
      some (if cf.name ≠ dotDot then ⟨.type, [], 0, lines + 1, size + itemSize cf⟩
        else ⟨.type, [], 0, lines, size⟩) := by
  obtain ⟨name, fsize, lastModified, isdir⟩ := cf
  cases isdir with
  | false =>
    have hname := hfile rfl
    have hbody := run_body ⟨.type, [], typeFile, lines, size⟩ rfl name
      (fun ch h => (@ne_of_mem_convert fsize ch h).1) lastModified
    rw [writeFileItem_file, run]
    refine hbody.trans ?_
    simp only [finish, if_pos hname, itemSize]
    simp [show typeFile ≠ typeDir by decide]
    omega
  | true =>
    by_cases hname : name = dotDot
    · subst hname
      rw [writeFileItem_up]
      rfl
    · have hbody := run_body ⟨.type, [], typeDir, lines, size⟩ rfl name
        (fun _ h => ne_of_mem_digits_zero h (by decide)) lastModified
      rw [writeFileItem_dir hname, run]
      refine hbody.trans ?_
      simp [finish, hname, itemSize, show typeDir ≠ typeFile by decide]
      omega

end CountPass

namespace BuildPass

open FileList

theorem run_body (sizes : Sizes) (s : BuildPass) (hname : s.name = []) (name : List UInt8)
    {size : List UInt8} (hsize : ∀ ch ∈ size, ch ≠ newline) (lastModified : Int64) :
    run (step sizes) { s with state := .quote } (itemBody name size lastModified) =
      finish sizes { s with
        state := .data, name, data := s.data ++ (size ++ space :: convert lastModified) } := by
  let nameAt (acc : List UInt8) : BuildPass := { s with state := .name, name := acc }
  let escAt (acc : List UInt8) : BuildPass := { s with state := .escape, name := acc }
  let dataAt (acc : List UInt8) : BuildPass := { s with state := .data, name, data := acc }
  have hnameRun : run (step sizes) (nameAt []) (escapeListName name) = some (nameAt name) := by
    refine run_escapeListName nameAt escAt ?_ ?_ ?_ name []
    · intro acc ch hquote hback
      simp [step, nameAt, hquote, hback]
    · intro acc
      simp [step, nameAt, escAt, show backslash ≠ quote by decide]
    · intro acc ch hch
      simp only [step, nameAt, escAt]
      rw [if_neg]
      rintro ⟨hquote, hback⟩
      exact hch.elim hquote hback
  have hdata : ∀ bs acc, (∀ ch ∈ bs, ch ≠ newline) →
      run (step sizes) (dataAt acc) bs = some (dataAt (acc ++ bs)) := by
    intro bs acc hbs
    refine run_collect (· ≠ newline) dataAt ?_ hbs acc
    intro acc ch hch
    simp [step, dataAt, hch]
  have hstart : run (step sizes) { s with state := .quote } [quote] = some (nameAt []) := by
    simp [run, step, nameAt, hname]
  have hend : run (step sizes) (nameAt name) [quote, space] = some (dataAt s.data) := by
    simp [run, step, nameAt, dataAt, show space ≠ quote by decide]
  have hspace : run (step sizes) (dataAt (s.data ++ size)) [space] =
      some (dataAt (s.data ++ size ++ [space])) :=
    hdata [space] _ fun ch h => by rw [List.mem_singleton.mp h]; decide
  have htime := hdata (convert lastModified) (s.data ++ size ++ [space])
    fun ch h => (ne_of_mem_convert h).1
  unfold itemBody
  rw [run_append, hstart, Option.bind_some, run_append, hnameRun, Option.bind_some, run_append,
    hend, Option.bind_some, run_append, hdata size _ hsize, Option.bind_some, run_append, hspace,
    Option.bind_some, run_append, htime, Option.bind_some, run]
  simp only [step, dataAt, if_pos]
  rw [List.append_assoc, List.append_assoc, List.singleton_append]
  exact Option.bind_fun_some _

def between (s : BuildPass) : BuildPass := { s with state := .type, name := [], data := [] }

def itemData (cf : SFile) : List UInt8 :=
  if cf.isdir then
    if cf.name ≠ dotDot then typeDir :: (Decimal.digits 0 ++ space :: convert cf.lastModified)
    else []
  else typeFile :: (convert cf.size ++ space :: convert cf.lastModified)

theorem finish_state (sizes : Sizes) (s : BuildPass) (state : ReadState) :
    finish sizes { s with state } = finish sizes s := by
  unfold finish
  split
  · simp only [addNode]
    split <;> rfl
  · simp only [closeDir]
    cases s.parents with
    | nil => rfl
    | cons parent parents =>
      cases s.firstChild with
      | true => rfl
      | false => cases s.lastNodes <;> rfl

theorem run_item (sizes : Sizes) (s : BuildPass) (cf : SFile) :
    run (step sizes) (between s) (writeFileItem cf) =
      finish sizes { s with name := cf.name, data := itemData cf } := by
  obtain ⟨name, size, lastModified, isdir⟩ := cf
  cases isdir with
  | false =>
    rw [writeFileItem_file, run]
    refine (run_body sizes { between s with data := [typeFile] } rfl name
      (fun ch h => (@ne_of_mem_convert size ch h).1) lastModified).trans ?_
    exact finish_state sizes { s with name, data := itemData ⟨name, size, lastModified, false⟩ } _
  | true =>
    by_cases hname : name = dotDot
    · subst hname
      rw [writeFileItem_up]
      refine Eq.trans (Option.bind_fun_some _) ?_
      exact finish_state sizes { s with name := dotDot, data := [] } .line
    · rw [writeFileItem_dir hname, run]
      refine (run_body sizes { between s with data := [typeDir] } rfl name
        (fun _ h => ne_of_mem_digits_zero h (by decide)) lastModified).trans ?_
      have hdata : itemData ⟨name, size, lastModified, true⟩ =
          typeDir :: (Decimal.digits 0 ++ space :: convert lastModified) := if_pos hname
      rw [hdata]
      exact finish_state sizes
        { s with name, data := typeDir :: (Decimal.digits 0 ++ space :: convert lastModified) } _

end BuildPass

end UrBackup
