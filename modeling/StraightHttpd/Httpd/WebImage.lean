import StraightHttpd.Lib.CText
import StraightHttpd.Lib.Loop
import StraightHttpd.Lib.Words
import StraightHttpd.NumberText

/-! # Web files in memory (`straight-buildfs.cpp`, `http_fs.c` with `LOCAL_FILE_SYSTEM` 0)

The builder lays the files out one behind the other, each with a record in front that tells where the
next one begins. The reader follows the records.
-/

set_option autoImplicit false

namespace StraightHttpd
open CMemory

/-- A file as the builder finds it. -/
structure WebFile where
  path : Bytes
  data : Bytes
  tLastModified : ℕ
  path_ne : path ≠ []
  path_text : (0 : UInt8) ∉ path
  path_short : path.length < 260 -- MAX_PATH
  time_ne : tLastModified ≠ 0
  time_lt : tLastModified < 2 ^ 64

/-- `http_file_info` -/
structure HttpFileInfo where
  nIndex : ℕ
  nSize : ℕ
  tLastModified : ℕ
  nAttributes : ℕ
  nReserved : ℕ
  nOffsetFileData : ℕ
  nOffsetNextFile : ℕ

/-- The 32 bytes of a record. -/
def HttpFileInfo.bytes (r : HttpFileInfo) : Bytes :=
  leBytes 4 r.nIndex ++ (leBytes 4 r.nSize ++ (leBytes 8 r.tLastModified ++ (leBytes 4 r.nAttributes ++
    (leBytes 4 r.nReserved ++ (leBytes 4 r.nOffsetFileData ++ leBytes 4 r.nOffsetNextFile)))))

/-! ## The builder -/

/-- Up to a multiple of four. -/
def align4 (n : ℕ) : ℕ := (n + 3) / 4 * 4

/-- The image so far, and the variables of the builder. -/
structure Builder where
  fBin : Bytes
  nFileIndex : ℕ
  nOffsetWrite : ℕ

namespace Builder

/-- The record of the next file. -/
def fileInfo (b : Builder) (f : WebFile) : HttpFileInfo where
  nIndex := b.nFileIndex
  nSize := f.data.length
  tLastModified := f.tLastModified
  nAttributes := 0
  nReserved := 0
  nOffsetFileData := b.nOffsetWrite + (32 + align4 (f.path.length + 1))
  nOffsetNextFile := b.nOffsetWrite + (32 + align4 (f.path.length + 1)) + align4 f.data.length

/-- The path from its buffer of zeros, and the file, both up to a multiple of four. -/
def addFile (b : Builder) (f : WebFile) : Builder where
  fBin := b.fBin ++ ((b.fileInfo f).bytes ++
    (f.path ++ List.replicate (align4 (f.path.length + 1) - f.path.length) 0 ++
      (f.data ++ List.replicate (align4 f.data.length - f.data.length) 0)))
  nFileIndex := b.nFileIndex + 1
  nOffsetWrite := (b.fileInfo f).nOffsetNextFile

end Builder

/-- `fs.bin`: the files and a record of zeros. -/
def webImage (files : List WebFile) : Bytes :=
  (files.foldl Builder.addFile ⟨[], 0, 0⟩).fBin ++ (HttpFileInfo.mk 0 0 0 0 0 0 0).bytes

/-! ## The reader -/

namespace WebImage

def maxFiles : ℕ := 32 -- MAX_FILES

/-- `file_handle`. The record is an offset into the image. -/
structure FileHandle where
  pFileInfo : Option ℕ
  lReadPos : ℕ

/-- `g_FileOpened` -/
abbrev FileOpened := Fin maxFiles → FileHandle

/-- `g_FileOpened` filled with zeros. -/
def closed : FileOpened := fun _ => ⟨none, 0⟩

variable (img : Bytes)

/-! Fields of the record at `p`. -/

def nSize (p : ℕ) : ℕ := wordAt 4 img (p + 4)
def tLastModified (p : ℕ) : ℕ := wordAt 8 img (p + 8)
def nOffsetFileData (p : ℕ) : ℕ := wordAt 4 img (p + 24)
def nOffsetNextFile (p : ℕ) : ℕ := wordAt 4 img (p + 28)

/-- A round of the walk along the records, which counts them until it comes to the last or to one
that is looked for. -/
def headerRound (found : ℕ → Bool) (v : ℕ × ℕ) : (ℕ × ℕ) ⊕ (ℕ × Option ℕ) :=
  if tLastModified img v.1 = 0 then .inr (v.2, none)
  else if found v.1 then .inr (v.2, some v.1)
  else .inl (nOffsetNextFile img v.1, v.2 + 1)

/-- The walk from the first record on, along `fuel` records at most. -/
def walk (fuel : ℕ) (found : ℕ → Bool) : Option (ℕ × Option ℕ) := Loop.run (headerRound img found) fuel (0, 0)

/-- `WEB_fs_init` -/
def fsInit (fuel : ℕ) : Option (ℕ × FileOpened) := (walk img fuel fun _ => false).map fun r => (r.1, closed)

/-- The comparison with the path behind a record. -/
def named (szFile : Bytes) (p : ℕ) : Bool := cstr szFile == cstr (img.drop (p + 32))

/-- The first slot that is free gets the record. -/
def openSlot (g : FileOpened) (p : ℕ) : FileOpened × Option (Fin maxFiles) :=
  match Fin.find? fun i => (g i).pFileInfo.isNone with
  | some i => (Function.update g i ⟨some p, 0⟩, some i)
  | none => (g, none)

/-- `WEB_fopen`, without the fake files. -/
def fopen (fuel : ℕ) (g : FileOpened) (szFile : Bytes) : Option (FileOpened × Option (Fin maxFiles)) :=
  (walk img fuel (named img szFile)).map fun r => (r.2.map (openSlot g)).getD (g, none)

/-- `WEB_ftime`, without the fake files. -/
def ftime (fuel : ℕ) (szFile : Bytes) : Option ℕ :=
  (walk img fuel (named img szFile)).map fun r => (r.2.map fun p => tLastModified img p % 2 ^ 32).getD 0

/-- `WEB_fsize` -/
def fsize (g : FileOpened) (i : Fin maxFiles) : ℤ := ((g i).pFileInfo.map fun p => wrap32 (nSize img p)).getD 0

/-- `WEB_fread` into a buffer of `count` bytes: `none` for a failure. The position is never behind the
end, where only `WEB_fseek` could set it. -/
def fread (i : Fin maxFiles) (g : FileOpened) (count : ℕ) : FileOpened × Option Bytes :=
  match (g i).pFileInfo with
  | none => (g, none)
  | some p =>
    let rest := wrap32 (nSize img p - (g i).lReadPos)
    let nCount := if rest > count then (count : ℤ) else rest
    let data := if nOffsetFileData img p = 0 then List.replicate nCount.toNat 65
      else slice img (nOffsetFileData img p + (g i).lReadPos) nCount.toNat
    (Function.update g i ⟨some p, (((g i).lReadPos + nCount) % 2 ^ 32).toNat⟩, some data)

/-- Several calls of `WEB_fread`. -/
def freads (i : Fin maxFiles) : FileOpened → List ℕ → List (Option Bytes)
  | _, [] => []
  | g, count :: counts => (fread img i g count).2 :: freads i (fread img i g count).1 counts

end WebImage

/-- A text in pieces of at most the given lengths. -/
def pieces : Bytes → List ℕ → List Bytes
  | _, [] => []
  | t, n :: ns => t.take n :: pieces (t.drop n) ns

theorem pieces_flatten (t : Bytes) (ns : List ℕ) : (pieces t ns).flatten = t.take ns.sum := by
  induction ns generalizing t with
  | nil => rfl
  | cons n ns ih => rw [pieces, List.flatten_cons, ih, List.sum_cons, List.take_add]

/-! ## Records -/

theorem HttpFileInfo.bytes_length (r : HttpFileInfo) : r.bytes.length = 32 := by
  simp only [HttpFileInfo.bytes, List.length_append, leBytes_length]

/-- The fields are read back, as far as they fit their words. -/
theorem HttpFileInfo.read {r : HttpFileInfo} {img pre rest : Bytes} (h : img = pre ++ (r.bytes ++ rest)) :
    (r.nSize < 2 ^ 32 → WebImage.nSize img pre.length = r.nSize) ∧
      (r.tLastModified < 2 ^ 64 → WebImage.tLastModified img pre.length = r.tLastModified) ∧
      (r.nOffsetFileData < 2 ^ 32 → WebImage.nOffsetFileData img pre.length = r.nOffsetFileData) ∧
      (r.nOffsetNextFile < 2 ^ 32 → WebImage.nOffsetNextFile img pre.length = r.nOffsetNextFile) := by
  have hfield (k n : ℕ) (before after : Bytes) (hr : r.bytes ++ rest = before ++ (leBytes k n ++ after))
      (hn : n < 256 ^ k) : wordAt k img (pre.length + before.length) = n := by
    have hsplit : img = (pre ++ before) ++ (leBytes k n ++ after) := by rw [h, hr, List.append_assoc]
    exact wordAt_append hsplit List.length_append.symm hn
  refine ⟨hfield 4 r.nSize (leBytes 4 r.nIndex) (leBytes 8 r.tLastModified ++ (leBytes 4 r.nAttributes ++
      (leBytes 4 r.nReserved ++ (leBytes 4 r.nOffsetFileData ++ (leBytes 4 r.nOffsetNextFile ++ rest))))) ?_,
    hfield 8 r.tLastModified (leBytes 4 r.nIndex ++ leBytes 4 r.nSize) (leBytes 4 r.nAttributes ++
      (leBytes 4 r.nReserved ++ (leBytes 4 r.nOffsetFileData ++ (leBytes 4 r.nOffsetNextFile ++ rest)))) ?_,
    hfield 4 r.nOffsetFileData (leBytes 4 r.nIndex ++ (leBytes 4 r.nSize ++ (leBytes 8 r.tLastModified ++
      (leBytes 4 r.nAttributes ++ leBytes 4 r.nReserved)))) (leBytes 4 r.nOffsetNextFile ++ rest) ?_,
    hfield 4 r.nOffsetNextFile (leBytes 4 r.nIndex ++ (leBytes 4 r.nSize ++ (leBytes 8 r.tLastModified ++
      (leBytes 4 r.nAttributes ++ (leBytes 4 r.nReserved ++ leBytes 4 r.nOffsetFileData))))) rest ?_⟩ <;>
    simp only [HttpFileInfo.bytes, List.append_assoc]

theorem le_align4 (n : ℕ) : n ≤ align4 n := by
  unfold align4
  omega

/-- The file stands in the image, with its record at `p` and the next one at `next`. -/
structure Stored (img : Bytes) (f : WebFile) (p next : ℕ) : Prop where
  size : WebImage.nSize img p = f.data.length
  time : WebImage.tLastModified img p = f.tLastModified
  next : WebImage.nOffsetNextFile img p = next
  path : cstr (img.drop (p + 32)) = f.path
  place : WebImage.nOffsetFileData img p ≠ 0
  data : ∃ rest, img.drop (WebImage.nOffsetFileData img p) = f.data ++ rest
  short : f.data.length < 2 ^ 31

/-- The files stand in the image one behind the other, from the record at `p` on. -/
inductive Laid (img : Bytes) : ℕ → List WebFile → Prop
  | last {p : ℕ} (h : WebImage.tLastModified img p = 0) : Laid img p []
  | file {p next : ℕ} {f : WebFile} {fs : List WebFile} (h : Stored img f p next) (ht : Laid img next fs) :
      Laid img p (f :: fs)

namespace Builder

/-- What the builder adds for a file. -/
def entry (b : Builder) (f : WebFile) : Bytes :=
  (b.fileInfo f).bytes ++ (f.path ++ List.replicate (align4 (f.path.length + 1) - f.path.length) 0 ++
    (f.data ++ List.replicate (align4 f.data.length - f.data.length) 0))

theorem addFile_fBin (b : Builder) (f : WebFile) : (b.addFile f).fBin = b.fBin ++ b.entry f := rfl

theorem entry_length (b : Builder) (f : WebFile) :
    (b.entry f).length = 32 + (align4 (f.path.length + 1) + align4 f.data.length) := by
  have hpath := le_align4 (f.path.length + 1)
  have hdata := le_align4 f.data.length
  simp only [entry, List.length_append, HttpFileInfo.bytes_length, List.length_replicate]
  omega

/-- The offset is where the next record goes. -/
def Placed (b : Builder) : Prop := b.nOffsetWrite = b.fBin.length

theorem Placed.addFile {b : Builder} (h : b.Placed) (f : WebFile) : (b.addFile f).Placed := by
  have hlength := b.entry_length f
  have hoffset : (b.addFile f).nOffsetWrite =
      b.nOffsetWrite + (32 + align4 (f.path.length + 1)) + align4 f.data.length := rfl
  rw [Placed, addFile_fBin, List.length_append, hlength, hoffset, h]
  omega

/-- The reader finds the file where the builder put it. -/
theorem stored {b : Builder} (h : b.Placed) (f : WebFile) {img rest : Bytes}
    (himg : img = b.fBin ++ (b.entry f ++ rest)) (hsize : img.length < 2 ^ 31) :
    Stored img f b.nOffsetWrite (b.addFile f).nOffsetWrite := by
  have hpath := le_align4 (f.path.length + 1)
  have hdata := le_align4 f.data.length
  have hroom : b.fBin.length + (32 + (align4 (f.path.length + 1) + align4 f.data.length)) ≤ img.length := by
    rw [himg, List.length_append, List.length_append, entry_length]
    omega
  have hplace : (b.fileInfo f).nOffsetFileData = b.fBin.length + (32 + align4 (f.path.length + 1)) :=
    congrArg (· + (32 + align4 (f.path.length + 1))) h
  have hnext : (b.fileInfo f).nOffsetNextFile =
      b.fBin.length + (32 + align4 (f.path.length + 1)) + align4 f.data.length :=
    congrArg (· + align4 f.data.length) hplace
  have hfill : align4 (f.path.length + 1) - f.path.length = align4 (f.path.length + 1) - (f.path.length + 1) + 1 := by
    omega
  -- the record, the path with a NUL, the rest of its buffer and the file
  obtain ⟨zeros, pad, hzeros, hsplit⟩ : ∃ zeros pad : Bytes,
      f.path.length + (zeros.length + 1) = align4 (f.path.length + 1) ∧
      img = b.fBin ++ ((b.fileInfo f).bytes ++ (f.path ++ 0 :: (zeros ++ (f.data ++ (pad ++ rest))))) := by
    refine ⟨List.replicate (align4 (f.path.length + 1) - (f.path.length + 1)) 0,
      List.replicate (align4 f.data.length - f.data.length) 0, ?_, ?_⟩
    · rw [List.length_replicate]
      omega
    · rw [himg, entry, hfill, List.replicate_succ]
      simp only [List.append_assoc, List.cons_append]
  obtain ⟨hsize', htime, hplace', hnext'⟩ := HttpFileInfo.read hsplit
  rw [← show b.nOffsetWrite = b.fBin.length from h] at hsize' htime hplace' hnext'
  have hoffset := hplace' (by rw [hplace]; omega)
  refine ⟨hsize' (by show f.data.length < 2 ^ 32; omega), htime f.time_lt, hnext' (by rw [hnext]; omega), ?_, ?_, ?_,
    by omega⟩
  · have hdrop : img.drop (b.nOffsetWrite + 32) = f.path ++ 0 :: (zeros ++ (f.data ++ (pad ++ rest))) := by
      rw [hsplit, h, ← List.drop_drop, List.drop_left, ← (b.fileInfo f).bytes_length, List.drop_left]
    rw [hdrop, cstr_append f.path_text, cstr_zero_cons, List.append_nil]
  · rw [hoffset, hplace]
    omega
  · refine ⟨pad ++ rest, ?_⟩
    have hbefore : b.fBin.length + (32 + align4 (f.path.length + 1)) =
        (b.fBin ++ ((b.fileInfo f).bytes ++ (f.path ++ 0 :: zeros))).length := by
      simp only [List.length_append, List.length_cons, HttpFileInfo.bytes_length]
      omega
    have hall : img = (b.fBin ++ ((b.fileInfo f).bytes ++ (f.path ++ 0 :: zeros))) ++ (f.data ++ (pad ++ rest)) := by
      rw [hsplit]
      simp only [List.append_assoc, List.cons_append]
    rw [hoffset, hplace, hbefore, hall, List.drop_left]

end Builder

theorem laid_image {files : List WebFile} {b : Builder} (h : b.Placed) {tail : Bytes}
    (htail : ∀ pre : Bytes, WebImage.tLastModified (pre ++ tail) pre.length = 0)
    (hsize : ((files.foldl Builder.addFile b).fBin ++ tail).length < 2 ^ 31) :
    ∃ rest, (files.foldl Builder.addFile b).fBin ++ tail = b.fBin ++ rest ∧
      Laid ((files.foldl Builder.addFile b).fBin ++ tail) b.nOffsetWrite files := by
  induction files generalizing b with
  | nil => exact ⟨tail, rfl, .last (h ▸ htail b.fBin)⟩
  | cons f fs ih =>
    obtain ⟨rest, himg, hlaid⟩ := ih (h.addFile f) hsize
    rw [Builder.addFile_fBin, List.append_assoc] at himg
    exact ⟨b.entry f ++ rest, himg, .file (Builder.stored h f himg hsize) hlaid⟩

theorem laid_webImage {files : List WebFile} (hsize : (webImage files).length < 2 ^ 31) :
    Laid (webImage files) 0 files := by
  have hlast (pre : Bytes) :
      WebImage.tLastModified (pre ++ (HttpFileInfo.mk 0 0 0 0 0 0 0).bytes) pre.length = 0 := by
    have hsplit : pre ++ (HttpFileInfo.mk 0 0 0 0 0 0 0).bytes =
        pre ++ ((HttpFileInfo.mk 0 0 0 0 0 0 0).bytes ++ []) := by rw [List.append_nil]
    exact (HttpFileInfo.read hsplit).2.1 (by decide)
  obtain ⟨-, -, hlaid⟩ := @laid_image files ⟨[], 0, 0⟩ rfl _ hlast hsize
  exact hlaid

/-! ## Walks -/

namespace WebImage

variable {img : Bytes} {files : List WebFile} {found : ℕ → Bool} {p : ℕ}

theorem headerRound_last (h : tLastModified img p = 0) (count : ℕ) :
    headerRound img found (p, count) = .inr (count, none) := if_pos h

theorem headerRound_file {f : WebFile} {next : ℕ} (h : Stored img f p next) (count : ℕ) :
    headerRound img found (p, count) = if found p then .inr (count, some p) else .inl (next, count + 1) := by
  have htime : tLastModified img p ≠ 0 := h.time.trans_ne f.time_ne
  unfold headerRound
  rw [if_neg htime, h.next]

/-- Whatever is looked for, the walk gets to an end. -/
theorem walk_ends (h : Laid img p files) {n : ℕ} (hn : files.length < n) (count : ℕ) :
    ∃ r, Loop.run (headerRound img found) n (p, count) = some r := by
  induction h generalizing n count with
  | last h =>
    obtain ⟨n, rfl⟩ := Nat.exists_eq_add_of_le' (Nat.one_le_of_lt hn)
    rw [Loop.run, headerRound_last h]
    exact ⟨_, rfl⟩
  | file h _ ih =>
    obtain ⟨n, rfl⟩ := Nat.exists_eq_add_of_le' (Nat.one_le_of_lt hn)
    rw [Loop.run, headerRound_file h]
    cases found _ with
    | true => exact ⟨_, rfl⟩
    | false => exact ih (Nat.lt_of_succ_lt_succ hn) (count + 1)

/-- A walk that finds nothing has counted the files. -/
theorem walk_none (h : Laid img p files) (hno : ∀ f ∈ files, ∀ q next, Stored img f q next → found q = false)
    {n : ℕ} (hn : files.length < n) (count : ℕ) :
    Loop.run (headerRound img found) n (p, count) = some (count + files.length, none) := by
  induction h generalizing n count with
  | last h =>
    obtain ⟨n, rfl⟩ := Nat.exists_eq_add_of_le' (Nat.one_le_of_lt hn)
    rw [Loop.run, headerRound_last h]
    rfl
  | @file q next f fs h _ ih =>
    obtain ⟨n, rfl⟩ := Nat.exists_eq_add_of_le' (Nat.one_le_of_lt hn)
    have hrest := ih (fun g hg => hno g (List.mem_cons_of_mem _ hg)) (Nat.lt_of_succ_lt_succ hn) (count + 1)
    rw [Loop.run, headerRound_file h, hno f List.mem_cons_self q next h, List.length_cons]
    rw [Nat.add_assoc, Nat.add_comm 1] at hrest
    exact hrest

/-- A walk that looks for one file finds it. -/
theorem walk_some (h : Laid img p files) {f : WebFile} (hf : f ∈ files)
    (hfound : ∀ g ∈ files, ∀ q next, Stored img g q next → (found q = true ↔ g = f)) {n : ℕ}
    (hn : files.length < n) (count : ℕ) : ∃ k q next,
      Loop.run (headerRound img found) n (p, count) = some (k, some q) ∧ Stored img f q next := by
  induction h generalizing n count with
  | last h => cases hf
  | @file q next g fs h _ ih =>
    obtain ⟨n, rfl⟩ := Nat.exists_eq_add_of_le' (Nat.one_le_of_lt hn)
    have hg := hfound g List.mem_cons_self q next h
    rw [Loop.run, headerRound_file h]
    by_cases heq : g = f
    · rw [hg.mpr heq]
      exact ⟨count, q, next, rfl, heq ▸ h⟩
    · rw [Bool.eq_false_iff.mpr (mt hg.mp heq)]
      have hmem : f ∈ fs := (List.mem_cons.mp hf).resolve_left fun hfg => heq hfg.symm
      exact ih hmem (fun g' hg' => hfound g' (List.mem_cons_of_mem _ hg')) (Nat.lt_of_succ_lt_succ hn) (count + 1)

theorem named_iff {szFile : Bytes} {f : WebFile} {next : ℕ} (h : Stored img f p next) :
    named img szFile p = true ↔ cstr szFile = f.path := by
  rw [named, h.path, beq_iff_eq]

/-! ## Reading -/

theorem fread_eq {f : WebFile} {next : ℕ} (h : Stored img f p next) {g : FileOpened} {i : Fin maxFiles} {pos : ℕ}
    (hg : g i = ⟨some p, pos⟩) (hpos : pos ≤ f.data.length) (count : ℕ) :
    fread img i g count = (Function.update g i ⟨some p, pos + min count (f.data.length - pos)⟩,
      some ((f.data.drop pos).take count)) := by
  have hshort := h.short
  have hrest : wrap32 ((nSize img p : ℤ) - pos) = (f.data.length - pos : ℕ) := by
    rw [h.size, wrap32_of_range (by omega)]
    omega
  have hcount : (if wrap32 ((nSize img p : ℤ) - pos) > count then (count : ℤ)
      else wrap32 ((nSize img p : ℤ) - pos)) = (min count (f.data.length - pos) : ℕ) := by
    rw [hrest]
    split_ifs <;> omega
  have hnext : (((pos : ℤ) + (min count (f.data.length - pos) : ℕ)) % 2 ^ 32).toNat =
      pos + min count (f.data.length - pos) := by omega
  have hdata : slice img (nOffsetFileData img p + pos) (min count (f.data.length - pos)) =
      (f.data.drop pos).take count := by
    obtain ⟨rest, hdrop⟩ := h.data
    have hlength : (f.data.drop pos).length = f.data.length - pos := List.length_drop
    rw [slice, ← List.drop_drop, hdrop, List.drop_append_of_le_length hpos,
      List.take_append_of_le_length (by omega), ← hlength, ← List.take_eq_take_min]
  unfold fread
  simp only [hg, hcount, if_neg h.place, Int.toNat_natCast, hnext, hdata]

/-- What is left of a file comes in the pieces that are asked for. -/
theorem freads_eq {f : WebFile} {next : ℕ} (h : Stored img f p next) {g : FileOpened} {i : Fin maxFiles}
    (counts : List ℕ) {pos : ℕ} (hg : g i = ⟨some p, pos⟩) (hpos : pos ≤ f.data.length) :
    freads img i g counts = (pieces (f.data.drop pos) counts).map some := by
  induction counts generalizing g pos with
  | nil => rfl
  | cons count counts ih =>
    have hrest : (f.data.drop pos).drop count = f.data.drop (pos + min count (f.data.length - pos)) := by
      rw [List.drop_drop]
      rcases Nat.le_total count (f.data.length - pos) with hle | hle
      · rw [Nat.min_eq_left hle]
      · rw [Nat.min_eq_right hle, List.drop_of_length_le (by omega), List.drop_of_length_le (by omega)]
    rw [freads, fread_eq h hg hpos, pieces, List.map_cons, hrest]
    exact congrArg (_ :: ·) (ih (Function.update_self _ _ _) (by omega))

/-- A slot that is free is found. -/
theorem openSlot_free {g : FileOpened} (hfree : ∃ i, (g i).pFileInfo = none) (p : ℕ) :
    ∃ j, (g j).pFileInfo = none ∧ openSlot g p = (Function.update g j ⟨some p, 0⟩, some j) := by
  obtain ⟨i, hi⟩ := hfree
  unfold openSlot
  cases hfind : Fin.find? (fun i => (g i).pFileInfo.isNone) with
  | none =>
    have hnot := Fin.find?_eq_none_iff.mp hfind i
    rw [hi] at hnot
    cases hnot
  | some j =>
    have hj := (Fin.find?_eq_some_iff.mp hfind).1
    exact ⟨j, Option.isNone_iff_eq_none.mp hj, rfl⟩

/-- A path of the list opens its file, which is then read from its beginning. -/
theorem fopen_file (hlaid : Laid img 0 files) (hnodup : (files.map WebFile.path).Nodup) {fuel : ℕ}
    (hfuel : files.length < fuel) {f : WebFile} (hf : f ∈ files) {szFile : Bytes} (hpath : cstr szFile = f.path)
    {g : FileOpened} (hfree : ∃ i, (g i).pFileInfo = none) :
    ∃ j g', (g j).pFileInfo = none ∧ fopen img fuel g szFile = some (g', some j) ∧ (∀ k ≠ j, g' k = g k) ∧
      fsize img g' j = f.data.length ∧ ∀ counts, freads img j g' counts = (pieces f.data counts).map some := by
  have hfound : ∀ g ∈ files, ∀ q next, Stored img g q next → (named img szFile q = true ↔ g = f) := by
    intro g hg q next hstored
    rw [named_iff hstored, hpath]
    constructor
    · intro hsame
      exact (List.inj_on_of_nodup_map hnodup hf hg hsame).symm
    · rintro rfl
      rfl
  obtain ⟨k, p, next, hwalk, hstored⟩ := walk_some hlaid hf hfound hfuel 0
  obtain ⟨j, hj, hopen⟩ := openSlot_free hfree p
  refine ⟨j, Function.update g j ⟨some p, 0⟩, hj, ?_, fun k hk => Function.update_of_ne hk _ _, ?_, ?_⟩
  · rw [fopen, walk, hwalk]
    simp only [Option.map_some, Option.getD_some, hopen]
  · have hshort := hstored.short
    rw [fsize, Function.update_self, Option.map_some, Option.getD_some, hstored.size, wrap32_of_range (by omega)]
  · intro counts
    exact freads_eq hstored counts (Function.update_self _ _ _) (Nat.zero_le _)

/-- Another path opens nothing. -/
theorem fopen_other (hlaid : Laid img 0 files) {fuel : ℕ} (hfuel : files.length < fuel) {szFile : Bytes}
    (hpath : cstr szFile ∉ files.map WebFile.path) (g : FileOpened) :
    fopen img fuel g szFile = some (g, none) := by
  have hno : ∀ f ∈ files, ∀ q next, Stored img f q next → named img szFile q = false := by
    intro f hf q next hstored
    rw [Bool.eq_false_iff, Ne, named_iff hstored]
    intro hsame
    exact hpath (hsame ▸ List.mem_map_of_mem hf)
  rw [fopen, walk, walk_none hlaid hno hfuel]
  rfl

/-- What the builder lays out is what the reader finds: every walk along the records ends, all files
are counted, each is opened by its path and read to its end, and there is nothing else. -/
theorem image_read {files : List WebFile} (hnodup : (files.map WebFile.path).Nodup)
    (hsize : (webImage files).length < 2 ^ 31) {fuel : ℕ} (hfuel : files.length < fuel) :
    (∀ szFile, ∃ t, ftime (webImage files) fuel szFile = some t) ∧
      (∀ szFile g, ∃ r, fopen (webImage files) fuel g szFile = some r) ∧
      fsInit (webImage files) fuel = some (files.length, closed) ∧
      (∀ f ∈ files, ∀ (szFile : Bytes) (g : FileOpened), cstr szFile = f.path → (∃ i, (g i).pFileInfo = none) →
        ∃ j g', (g j).pFileInfo = none ∧ fopen (webImage files) fuel g szFile = some (g', some j) ∧
          (∀ k ≠ j, g' k = g k) ∧ fsize (webImage files) g' j = f.data.length ∧
          ∀ counts, freads (webImage files) j g' counts = (pieces f.data counts).map some ∧
            (pieces f.data counts).flatten = f.data.take counts.sum) ∧
      ∀ (szFile : Bytes) (g : FileOpened), cstr szFile ∉ files.map WebFile.path →
        fopen (webImage files) fuel g szFile = some (g, none) := by
  have hlaid := laid_webImage hsize
  have hends (szFile : Bytes) : ∃ r, walk (webImage files) fuel (named (webImage files) szFile) = some r :=
    walk_ends hlaid hfuel 0
  refine ⟨fun szFile => ?_, fun szFile g => ?_, ?_, ?_, ?_⟩
  · obtain ⟨r, hr⟩ := hends szFile
    rw [ftime, hr]
    exact ⟨_, rfl⟩
  · obtain ⟨r, hr⟩ := hends szFile
    rw [fopen, hr]
    exact ⟨_, rfl⟩
  · rw [fsInit, walk, walk_none hlaid (fun _ _ _ _ _ => rfl) hfuel, Nat.zero_add]
    rfl
  · intro f hf szFile g hpath hfree
    obtain ⟨j, g', hj, hopen, hothers, hlength, hreads⟩ := fopen_file hlaid hnodup hfuel hf hpath hfree
    exact ⟨j, g', hj, hopen, hothers, hlength, fun counts => ⟨hreads counts, pieces_flatten f.data counts⟩⟩
  · intro szFile g hpath
    exact fopen_other hlaid hfuel hpath g

theorem pathA : [47, 97] ≠ ([] : Bytes) ∧ (0 : UInt8) ∉ ([47, 97] : Bytes) ∧ ([47, 97] : Bytes).length < 260 ∧
    1605130877 ≠ 0 ∧ 1605130877 < 2 ^ 64 := by decide

theorem pathB : [47, 98, 98] ≠ ([] : Bytes) ∧ (0 : UInt8) ∉ ([47, 98, 98] : Bytes) ∧
    ([47, 98, 98] : Bytes).length < 260 ∧ 1 ≠ 0 ∧ 1 < 2 ^ 64 := by decide

/-- An empty file, and one of five bytes. -/
def twoFiles : List WebFile :=
  [⟨[47, 98, 98], [], 1, pathB.1, pathB.2.1, pathB.2.2.1, pathB.2.2.2.1, pathB.2.2.2.2⟩,
    ⟨[47, 97], [104, 101, 108, 108, 111], 1605130877, pathA.1, pathA.2.1, pathA.2.2.1, pathA.2.2.2.1, pathA.2.2.2.2⟩]

theorem image_read_two : fsInit (webImage twoFiles) 3 = some (2, closed) ∧
    (∃ j g', fopen (webImage twoFiles) 3 closed (bytes "/a" ++ [0]) = some (g', some j) ∧
      freads (webImage twoFiles) j g' [2, 9] = [some (bytes "he"), some (bytes "llo")]) ∧
    fopen (webImage twoFiles) 3 closed (bytes "/b" ++ [0]) = some (closed, none) := by
  have hnodup : (twoFiles.map WebFile.path).Nodup := by decide +kernel
  have hsize : (webImage twoFiles).length < 2 ^ 31 := by decide +kernel
  have hread := @image_read twoFiles hnodup hsize 3 (by decide)
  have hpath : cstr (bytes "/a" ++ [0]) = [47, 97] := by decide +kernel
  have hother : cstr (bytes "/b" ++ [0]) ∉ twoFiles.map WebFile.path := by decide +kernel
  obtain ⟨-, -, hcount, hfile, hnone⟩ := hread
  obtain ⟨j, g', -, hopen, -, -, hreads⟩ :=
    hfile _ (List.mem_cons_of_mem _ List.mem_cons_self) _ closed hpath ⟨⟨0, by decide⟩, rfl⟩
  refine ⟨hcount, ⟨j, g', hopen, (hreads [2, 9]).1.trans ?_⟩, hnone _ closed hother⟩
  decide +kernel

end WebImage

end StraightHttpd
