import StraightHttpd.Httpd.FilePaths
import StraightHttpd.Httpd.StringFields
import StraightHttpd.Lib.Json
import StraightHttpd.Lib.Runs
import StraightHttpd.NumberText

/-! # The listing of a folder (`cgi/cgi_files.c`)

`Files_ReadOneFileInfo` puts the entries of a folder out block by block. The blocks are a JSON object with
the listed entries as long as there is an entry to list, or none to read, and every block is large enough.
-/

set_option autoImplicit false

namespace StraightHttpd
namespace Directory
open CMemory

/-! ## What is to be listed -/

/-- The filter leads to the root of the listing, from whatever folder. -/
def AtRoot (c : Core) : Prop := ∀ cwd, resolve cwd (listFilter (queryPath c)) = resolve cwd (listFilter none)

/-- The filter begins with a drive. -/
theorem listFilter_drive (p : Option Bytes) : ∃ rest, listFilter p = 68 :: 58 :: rest := by
  have hfolder : folderToList = 68 :: 58 :: folderToList.drop 2 := rfl
  unfold listFilter
  rw [hfolder]
  cases p with
  | none => exact ⟨_, rfl⟩
  | some p =>
    simp only
    split_ifs
    · exact ⟨_, rfl⟩
    · exact ⟨_, rfl⟩

theorem resolve_listFilter (cwd cwd' : Place) (p : Option Bytes) :
    resolve cwd (listFilter p) = resolve cwd' (listFilter p) := by
  obtain ⟨rest, hrest⟩ := listFilter_drive p
  rw [hrest]
  rfl

instance (c : Core) : Decidable (AtRoot c) :=
  decidable_of_iff (resolve ⟨68, []⟩ (listFilter (queryPath c)) = resolve ⟨68, []⟩ (listFilter none))
    ⟨fun h cwd => by rw [resolve_listFilter cwd ⟨68, []⟩, h, resolve_listFilter ⟨68, []⟩ cwd], fun h => h _⟩

/-- No folder is named behind the root. -/
def Spelled (c : Core) : Prop := ∀ p, queryPath c = some p → p = [] ∨ p = [47]

/-- The entries other than `.`, and other than `..` at the root. -/
def listed (c : Core) (entries : List DirEntry) : List DirEntry :=
  entries.filter fun e => decide (e.name ≠ [46] ∧ ¬ (e.name = [46, 46] ∧ AtRoot c))

def entryJson (e : DirEntry) : Json :=
  .object [(bytes "folder", .number (if e.isFolder then 1 else 0)), (bytes "name", .string e.name),
    (bytes "size", .number e.size), (bytes "date", .number (wrap32 e.date))]

/-- An entry with a name that needs no escapes. -/
structure PlainEntry (e : DirEntry) : Prop where
  name : e.name ≠ [] ∧ e.name.length ≤ 127 ∧ ∀ b ∈ e.name, Json.Plain b
  size : -2147483648 ≤ e.size ∧ e.size < 2147483648

/-! ## The calls of a listing -/

/-- A block, with the size that was asked for and what was returned. -/
structure Block where
  maxSize : ℤ
  text : Bytes
  count : ℤ

/-- A listing: how many entries were read, and the blocks so far. -/
structure Listing where
  work : Work
  read : ℕ
  blocks : List Block

def Listing.text (s : Listing) : Bytes := s.blocks.flatMap Block.text

/-- The folder that a call reads from entry `k` on holds these entries. `patience` is only the bound on the
rounds that the model takes. -/
structure Serves (env : Env) (entries : List DirEntry) (k : ℕ) (w : Work) : Prop where
  first : k = 0 → env.firstdir w.world.calls w.responsePath = entries.head?
  next : ∀ h j, (if k = 0 then h = w.world.files.opened ∧ 0 < j else w.ssiCtx.fp = .handle h) →
    env.readdir (w.world.calls + j) h = entries[k + j]?
  patience : entries.length ≤ env.patience

inductive ListingEvent
  | call (env : Env) (maxSize : ℤ)
  | others (world : World)

/-- `Files_ReadOneFileInfo` adds a block. -/
def Listing.call (c : Core) (env : Env) (maxSize : ℤ) (s : Listing) : Listing :=
  let r := filesReadOneFileInfo env c s.work maxSize
  { work := r.1
    read := s.read + (r.1.world.calls - s.work.world.calls)
    blocks := s.blocks ++ [⟨maxSize, r.2.1, r.2.2⟩] }

/-- The calls for a request until `STAGE_END` is set, with what other connections do in between. -/
def listings (c : Core) (entries : List DirEntry) : RunSystem Listing ListingEvent where
  init s := ∃ env w, w.dwOperStage = 0 ∧ w.dwTotal = 0 ∧ w.world.fault = false ∧
    s = ⟨filesOnRequestReceived env c w, 0, []⟩
  step s e s' := match e with
    | .call env maxSize => s.work.dwOperStage ≠ stageEnd ∧ Serves env entries s.read s.work ∧
        s' = s.call c env maxSize
    | .others world => world.fault = false ∧ s' = { s with work := { s.work with world := world } }

/-- The listing is complete when it ends, ends in time, and its blocks are neither too long nor reported as
the end. -/
structure Complete (c : Core) (entries : List DirEntry) (s : Listing) : Prop where
  json : s.work.dwOperStage = stageEnd → ∃ members, Json.Spells (.object members) s.text ∧
    members.lookup (bytes "data") = some (.array ((listed c entries).map entryJson))
  blocks : ∀ b ∈ s.blocks, (b.text.length : ℤ) ≤ b.maxSize ∧ b.count ≠ -1
  ends : s.blocks.length ≤ entries.length + 1
  inBounds : s.work.world.fault = false

/-- A folder that can be listed: there is an entry to list, or none at all, the root is not asked for by way
of a folder when it has an entry `..`, and the counter of the stages and the buffer for the path are large
enough. -/
structure Listable (c : Core) (entries : List DirEntry) : Prop where
  shown : entries = [] ∨ listed c entries ≠ []
  root : AtRoot c → Spelled c ∨ ∀ e ∈ entries, e.name ≠ [46, 46]
  few : entries.length < 2 ^ 32 - 1
  path : (listFilter (queryPath c)).length < 128

/-- A call has room: for an entry and the end of the block, and for the opening with the first entry. -/
def Roomy (c : Core) (entries : List DirEntry) (s : Listing) : ListingEvent → Prop
  | .call _ maxSize => 200 < maxSize ∧
      (s.work.dwTotal = 0 → ∀ e, (listed c entries).head? = some e → ((fileItem true e).length : ℤ) ≤ maxSize)
  | .others _ => True

/-! ## The text of the entries -/

def opening : Bytes := bytes "\x7b\"result\":1, \"data\":["

def closing : Bytes := bytes "]\x7d"

/-- What is put out for an empty folder. -/
def nothing : Bytes := bytes "\x7b\"result\":0, \"data\":[]\x7d"

def entryText (e : DirEntry) : Bytes :=
  bytes "\x7b\"folder\":" ++ bytes (if e.isFolder then "1" else "0") ++ bytes ",\"name\":\"" ++
    e.name ++ bytes "\",\"size\":" ++ intText e.size ++ bytes ",\"date\":" ++
    intText (wrap32 e.date) ++ bytes "\x7d"

theorem fileItem_true (e : DirEntry) : fileItem true e = opening ++ entryText e := by
  simp only [fileItem, entryText, opening, if_true, List.append_assoc]

theorem fileItem_false (e : DirEntry) : fileItem false e = 44 :: entryText e := by
  simp only [fileItem, entryText, List.append_assoc]
  rfl

/-- The text of the listed entries. -/
def body : List DirEntry → Bytes
  | [] => []
  | e :: es => fileItem true e ++ es.flatMap (fileItem false)

theorem body_append (es : List DirEntry) (e : DirEntry) :
    body (es ++ [e]) = body es ++ fileItem (((es.length : ℕ) : ℤ) == 0) e := by
  cases es with
  | nil =>
    show fileItem true e ++ [] = [] ++ fileItem true e
    rw [List.append_nil, List.nil_append]
  | cons d es =>
    have hlater : (((d :: es).length : ℕ) : ℤ) ≠ 0 := by
      rw [List.length_cons]
      omega
    rw [beq_eq_false_iff_ne.mpr hlater]
    show fileItem true d ++ (es ++ [e]).flatMap (fileItem false) = fileItem true d ++ es.flatMap (fileItem false) ++ _
    rw [List.flatMap_append, List.flatMap_singleton, List.append_assoc]

theorem entryText_spells {e : DirEntry} (he : PlainEntry e) : Json.Spells (entryJson e) (entryText e) := by
  have hfolder : bytes "\x7b\"folder\":" = 123 :: (Json.quoted (bytes "folder") ++ [58]) := by decide
  have hname : bytes ",\"name\":\"" = 44 :: (Json.quoted (bytes "name") ++ [58, 34]) := by decide
  have hsize : bytes "\",\"size\":" = 34 :: 44 :: (Json.quoted (bytes "size") ++ [58]) := by decide
  have hdate : bytes ",\"date\":" = 44 :: (Json.quoted (bytes "date") ++ [58]) := by decide
  have hflag : bytes (if e.isFolder then "1" else "0") = intText (if e.isFolder then 1 else 0) := by
    cases e.isFolder
    · decide
    · decide
  have hall : entryText e = 123 :: ((Json.quoted (bytes "folder") ++ 58 :: (intText (if e.isFolder then 1 else 0) ++
      44 :: ([] ++ (Json.quoted (bytes "name") ++ 58 :: (Json.quoted e.name ++
        44 :: ([] ++ (Json.quoted (bytes "size") ++ 58 :: (intText e.size ++
          44 :: ([] ++ (Json.quoted (bytes "date") ++ 58 :: intText (wrap32 e.date))))))))))) ++ [125]) := by
    rw [entryText, hfolder, hname, hsize, hdate, hflag, show bytes "\x7d" = [125] from rfl]
    simp only [Json.quoted, List.append_assoc, List.cons_append, List.nil_append]
  rw [hall]
  exact .object (.more (by decide +kernel) (.number _) Json.Blank.nil
    (.more (by decide +kernel) (.string he.name.2.2) Json.Blank.nil
      (.more (by decide +kernel) (.number _) Json.Blank.nil (.last (by decide +kernel) (.number _)))))

theorem entryText_length {e : DirEntry} (he : PlainEntry e) : (entryText e).length ≤ 187 := by
  have hname := he.name.2.1
  have hsize := intText_length he.size
  have hdate := intText_length (wrap32_range e.date)
  have hflag : (bytes (if e.isFolder then "1" else "0")).length = 1 := by
    cases e.isFolder
    · rfl
    · rfl
  have hfolder : (bytes "\x7b\"folder\":").length = 10 := by decide
  have hkey : (bytes ",\"name\":\"").length = 9 := by decide
  have hbehind : (bytes "\",\"size\":").length = 9 := by decide
  have hlast : (bytes ",\"date\":").length = 8 := by decide
  have hend : (bytes "\x7d").length = 1 := by decide
  simp only [entryText, List.length_append, hflag, hfolder, hkey, hbehind, hlast, hend]
  omega

/-! ## Hidden entries -/

theorem queryPath_no_nul {c : Core} {p : Bytes} (h : queryPath c = some p) : (0 : UInt8) ∉ p := by
  unfold queryPath at h
  split_ifs at h
  simp only [Option.map_eq_some_iff] at h
  obtain ⟨i, -, rfl⟩ := h
  exact fun hmem => not_mem_cstr _ (List.mem_of_mem_drop hmem)

theorem listFilter_no_nul (c : Core) : (0 : UInt8) ∉ listFilter (queryPath c) := by
  have hfolder : (0 : UInt8) ∉ folderToList := by decide +kernel
  have hall : (0 : UInt8) ∉ bytes "*.*" := by decide +kernel
  cases hp : queryPath c with
  | none => exact fun h => (List.mem_append.mp h).elim hfolder hall
  | some p =>
    have hstrip : (0 : UInt8) ∉ stripSlash p := by
      intro h
      refine queryPath_no_nul hp ?_
      unfold stripSlash at h
      split at h
      · exact List.mem_cons_of_mem _ h
      · exact h
    have hfilter : listFilter (some p) = (if (folderToList ++ stripSlash p).getLast? = some 47
        then folderToList ++ stripSlash p else folderToList ++ stripSlash p ++ [47]) ++ bytes "*.*" := rfl
    rw [hfilter]
    split_ifs <;> simp [hfolder, hall, hstrip]

/-- The length of the path tells whether a folder is named. -/
theorem strlen_root (c : Core) : strlen (listFilter (queryPath c)) = folderToList.length + 3 ↔ Spelled c := by
  rw [strlen, cstr_of_no_nul (listFilter_no_nul c), Spelled]
  have hroot : folderToList.length = 80 := by decide
  have hall : (bytes "*.*").length = 3 := rfl
  cases hp : queryPath c with
  | none => exact iff_of_true List.length_append fun p h => by cases h
  | some p =>
    have hstrip : stripSlash p = [] ↔ p = [] ∨ p = [47] := by
      unfold stripSlash
      split
      next rest => simp
      next hslash => exact ⟨.inl, fun h => h.resolve_right fun h => hslash [] h⟩
    rw [listFilter_length, hroot]
    constructor
    · rintro hlen q h
      obtain rfl := Option.some.inj h
      exact hstrip.mp (List.length_eq_zero_iff.mp (by omega))
    · intro h
      rw [hstrip.mpr (h p rfl), List.length_nil, if_pos (.inl rfl)]

/-- The root is asked for when no folder is named. -/
theorem Spelled.atRoot {c : Core} (h : Spelled c) : AtRoot c := by
  intro cwd
  have hlast : folderToList.getLast? = some 47 := by decide
  cases hp : queryPath c with
  | none => rfl
  | some p =>
    have hfilter : listFilter (some p) = (if (folderToList ++ stripSlash p).getLast? = some 47
        then folderToList ++ stripSlash p else folderToList ++ stripSlash p ++ [47]) ++ bytes "*.*" := rfl
    have hnil : stripSlash p = [] := by
      rcases h p hp with rfl | rfl
      · rfl
      · rfl
    rw [hfilter, hnil, List.append_nil, if_pos hlast]
    rfl

theorem skipped_eq {c : Core} {w : Work} {e : DirEntry} (hpath : w.responsePath = listFilter (queryPath c))
    (he : PlainEntry e) (hroot : AtRoot c → Spelled c ∨ e.name ≠ [46, 46]) :
    skipped w e = true ↔ ¬ (e.name ≠ [46] ∧ ¬ (e.name = [46, 46] ∧ AtRoot c)) := by
  have hne := he.name.1
  have hspelled : e.name = [46, 46] ∧ Spelled c ↔ e.name = [46, 46] ∧ AtRoot c :=
    and_congr_right fun hname => ⟨Spelled.atRoot, fun h => (hroot h).resolve_right fun h => h hname⟩
  rw [skipped, hpath, Bool.or_eq_true, Bool.or_eq_true, Bool.and_eq_true, beq_iff_eq, beq_iff_eq, beq_iff_eq,
    beq_iff_eq, strlen_root, hspelled]
  tauto

theorem listed_take_succ {c : Core} {entries : List DirEntry} {k : ℕ} {e : DirEntry} (he : entries[k]? = some e) :
    listed c (entries.take (k + 1)) = listed c (entries.take k) ++
      if e.name ≠ [46] ∧ ¬ (e.name = [46, 46] ∧ AtRoot c) then [e] else [] := by
  rw [List.take_add_one, he, listed, listed, List.filter_append]
  congr 1
  by_cases hshow : e.name ≠ [46] ∧ ¬ (e.name = [46, 46] ∧ AtRoot c)
  · rw [if_pos hshow]
    exact List.filter_cons_of_pos (decide_eq_true hshow)
  · rw [if_neg hshow]
    exact List.filter_cons_of_neg (fun h => hshow (of_decide_eq_true h))

/-! ## Reading the entries -/

/-- `k` entries were read, and those that are listed counted. -/
structure Position (c : Core) (entries : List DirEntry) (k : ℕ) (w : Work) : Prop where
  stage : w.dwOperStage = k
  le : k ≤ entries.length
  path : w.responsePath = listFilter (queryPath c)
  total : w.dwTotal = ((listed c (entries.take k)).length : ℕ)
  handle : k ≠ 0 → ∃ h, w.ssiCtx.fp = .handle h
  noFault : w.world.fault = false

variable {env : Env} {c : Core} {entries : List DirEntry}

theorem plain_name {e : DirEntry} (he : PlainEntry e) : { e with name := (cstr e.name).take 127 } = e := by
  have hnul : (0 : UInt8) ∉ e.name := fun h => absurd (he.name.2.2 0 h) (by decide)
  rw [cstr_of_no_nul hnul, List.take_of_length_le he.name.2.1]

/-- The next entry is read. -/
theorem nextEntry_some (hfew : entries.length < 2 ^ 32 - 1) (hplain : ∀ e ∈ entries, PlainEntry e) {k : ℕ} {w : Work}
    (hs : Serves env entries k w) (hp : Position c entries k w) {e : DirEntry} (he : entries[k]? = some e) :
    ∃ w', nextEntry env c w = (w', .inl e) ∧ Serves env entries (k + 1) w' ∧ w'.dwOperStage = k + 1 ∧
      w'.responsePath = w.responsePath ∧ w'.dwTotal = w.dwTotal ∧ (∃ h, w'.ssiCtx.fp = .handle h) ∧
      w'.world.fault = false ∧ w'.world.calls = w.world.calls + 1 := by
  have hlt : k < entries.length := (List.getElem?_eq_some_iff.mp he).1
  have hname := plain_name (hplain e (List.mem_of_getElem? he))
  unfold nextEntry
  by_cases hzero : k = 0
  · subst hzero
    have hstage : w.dwOperStage = 0 := hp.stage
    have hfirst : env.firstdir w.world.calls w.responsePath = some e := by
      rw [hs.first rfl, List.head?_eq_getElem?]
      exact he
    simp only [if_pos hstage, World.webFirstdir, hfirst, hname]
    refine ⟨_, rfl, ⟨fun h => absurd h (Nat.succ_ne_zero _), ?_, hs.patience⟩, rfl, rfl, rfl, ⟨_, rfl⟩, hp.noFault, rfl⟩
    intro h j hh
    rw [if_neg (Nat.succ_ne_zero _)] at hh
    have hopened : w.world.files.opened = h := Fp.handle.inj hh
    have hnext := hs.next h (1 + j) (by rw [if_pos rfl]; exact ⟨hopened.symm, by omega⟩)
    rw [← Nat.add_assoc, Nat.zero_add] at hnext
    rw [Nat.zero_add]
    exact hnext
  · obtain ⟨f, hf⟩ := hp.handle hzero
    have hstage : ¬ w.dwOperStage = 0 := by
      rw [hp.stage]
      exact hzero
    have hnext : env.readdir w.world.calls f = some e := by
      rw [← he]
      exact hs.next f 0 (by rw [if_neg hzero]; exact hf)
    have hstages : nextStage w.dwOperStage = k + 1 := by
      rw [hp.stage, nextStage]
      omega
    simp only [if_neg hstage, World.webReaddir, hf, hnext, Option.map_some, hname]
    refine ⟨_, rfl, ⟨fun h => absurd h (Nat.succ_ne_zero _), ?_, hs.patience⟩, hstages, rfl, rfl, ⟨f, hf⟩, hp.noFault, rfl⟩
    intro h j hh
    rw [if_neg (Nat.succ_ne_zero _)] at hh
    have hlater := hs.next h (1 + j) (by rw [if_neg hzero]; exact hh)
    rw [← Nat.add_assoc, ← Nat.add_assoc] at hlater
    exact hlater

/-- The listing ends. -/
theorem nextEntry_none {k : ℕ} {w : Work} (hs : Serves env entries k w) (hp : Position c entries k w)
    (he : entries[k]? = none) :
    ∃ w', nextEntry env c w = (w', .inr (if entries = [] then nothing else closing)) ∧ w'.dwOperStage = stageEnd ∧
      w'.world.fault = false := by
  have hk : k = entries.length := Nat.le_antisymm hp.le (List.getElem?_eq_none_iff.mp he)
  unfold nextEntry
  by_cases hzero : k = 0
  · have hnil : entries = [] := List.length_eq_zero_iff.mp (by omega)
    have hstage : w.dwOperStage = 0 := by rw [hp.stage, hzero]
    have hfirst : env.firstdir w.world.calls w.responsePath = none := by
      rw [hs.first hzero, hnil]
      rfl
    simp only [if_pos hstage, World.webFirstdir, hfirst, if_pos hnil]
    exact ⟨_, rfl, rfl, hp.noFault⟩
  · have hne : entries ≠ [] := fun hnil => hzero (by rw [hk, hnil]; rfl)
    obtain ⟨f, hf⟩ := hp.handle hzero
    have hstage : ¬ w.dwOperStage = 0 := by
      rw [hp.stage]
      exact hzero
    have hnext : env.readdir w.world.calls f = none := by
      rw [← he]
      exact hs.next f 0 (by rw [if_neg hzero]; exact hf)
    simp only [if_neg hstage, World.webReaddir, hf, hnext, Option.map_none, if_neg hne]
    exact ⟨_, rfl, rfl, hp.noFault⟩

/-- What a call comes to from entry `k` on: more entries, or the end. -/
inductive Advance (c : Core) (entries : List DirEntry) (maxSize : ℤ) (k : ℕ) (w : Work) (out added : Bytes) (w' : Work) :
    Prop
  | more {k' : ℕ} : k ≤ k' → Position c entries k' w' → maxSize - 200 ≤ ((out ++ added).length : ℤ) →
      body (listed c (entries.take k')) = body (listed c (entries.take k)) ++ added →
      w'.world.calls = w.world.calls + (k' - k) → Advance c entries maxSize k w out added w'
  | finished : w'.dwOperStage = stageEnd → w'.world.fault = false → 0 < added.length →
      body (listed c entries) ++ (if entries = [] then nothing else closing) = body (listed c (entries.take k)) ++ added →
      Advance c entries maxSize k w out added w'

theorem Advance.step {maxSize : ℤ} {k : ℕ} {w w₁ w₂ : Work} {out item added : Bytes}
    (h : Advance c entries maxSize (k + 1) w₁ (out ++ item) added w₂)
    (hbody : body (listed c (entries.take (k + 1))) = body (listed c (entries.take k)) ++ item)
    (hcalls : w₁.world.calls = w.world.calls + 1) : Advance c entries maxSize k w out (item ++ added) w₂ := by
  cases h with
  | more hle hp hlen hsame hcount =>
    refine .more (Nat.le_of_succ_le hle) hp ?_ ?_ (by omega)
    · rw [← List.append_assoc]
      exact hlen
    · rw [hsame, hbody, List.append_assoc]
  | finished hstage hfault hpos hsame =>
    refine .finished hstage hfault ?_ ?_
    · rw [List.length_append]
      omega
    · rw [hsame, hbody, List.append_assoc]

/-- The first entry that is listed. -/
theorem listed_head {k : ℕ} {e : DirEntry} (he : entries[k]? = some e)
    (hshow : e.name ≠ [46] ∧ ¬ (e.name = [46, 46] ∧ AtRoot c)) (hnil : listed c (entries.take k) = []) :
    (listed c entries).head? = some e := by
  have hsplit : listed c entries = listed c (entries.take (k + 1)) ++ listed c (entries.drop (k + 1)) := by
    rw [listed, listed, listed, ← List.filter_append, List.take_append_drop]
  rw [hsplit, listed_take_succ he, hnil, if_pos hshow]
  rfl

/-- The loop of `Files_ReadOneFileInfo`, with enough rounds. -/
theorem filesLoop_advance (hlist : Listable c entries) (hplain : ∀ e ∈ entries, PlainEntry e) {maxSize : ℤ}
    (n : ℕ) {k : ℕ} {w : Work} (out : Bytes) (hn : entries.length < k + n) (hs : Serves env entries k w)
    (hp : Position c entries k w) (hout : (out.length : ℤ) ≤ maxSize)
    (hroom : w.dwTotal = 0 → out = [] ∧
      ∀ e, (listed c entries).head? = some e → ((fileItem true e).length : ℤ) ≤ maxSize) :
    ∃ w' added, filesLoop env c maxSize n w out = (w', out ++ added) ∧ ((out ++ added).length : ℤ) ≤ maxSize ∧
      Advance c entries maxSize k w out added w' := by
  induction n generalizing k w out with
  | zero =>
    have hle := hp.le
    omega
  | succ n ih =>
    unfold filesLoop
    by_cases hlt : (out.length : ℤ) < maxSize - 200
    swap
    · refine ⟨w, [], by rw [if_neg hlt, List.append_nil], by rw [List.append_nil]; exact hout, ?_⟩
      refine .more le_rfl hp ?_ (List.append_nil _).symm (by omega)
      rw [List.append_nil]
      omega
    rw [if_pos hlt]
    cases he : entries[k]? with
    | none =>
      obtain ⟨w', hnext, hstage, hfault⟩ := nextEntry_none hs hp he
      have hall : entries.take k = entries := List.take_of_length_le (List.getElem?_eq_none_iff.mp he)
      have htext : (if entries = [] then nothing else closing).length ≤ 200 ∧
          0 < (if entries = [] then nothing else closing).length := by
        split_ifs
        · decide
        · decide
      rw [hnext]
      refine ⟨w', _, rfl, ?_, .finished hstage hfault htext.2 ?_⟩
      · rw [List.length_append]
        omega
      · rw [hall]
    | some e =>
      obtain ⟨w', hnext, hserves, hstage, hpath, htotal, hhandle, hfault, hcalls⟩ := nextEntry_some hlist.few hplain hs hp he
      have he' : PlainEntry e := hplain e (List.mem_of_getElem? he)
      have hlt' : k < entries.length := (List.getElem?_eq_some_iff.mp he).1
      have hskipped := skipped_eq (hpath.trans hp.path) he' fun h =>
        (hlist.root h).imp_right fun hall => hall e (List.mem_of_getElem? he)
      rw [hnext]
      simp only
      by_cases hshow : e.name ≠ [46] ∧ ¬ (e.name = [46, 46] ∧ AtRoot c)
      · have hlisted := @listed_take_succ c _ _ _ he
        rw [if_pos hshow] at hlisted
        rw [if_neg fun h => hskipped.mp h hshow, htotal, hp.total]
        have hbody : body (listed c (entries.take (k + 1))) = body (listed c (entries.take k)) ++
            fileItem ((((listed c (entries.take k)).length : ℕ) : ℤ) == 0) e := by rw [hlisted, body_append]
        have hpos : Position c entries (k + 1)
            { w' with dwTotal := (((listed c (entries.take k)).length : ℕ) : ℤ) + 1 } := by
          refine ⟨hstage, hlt', hpath.trans hp.path, ?_, fun _ => hhandle, hfault⟩
          rw [hlisted, List.length_append, List.length_singleton]
          exact (Nat.cast_succ _).symm
        have hfits : ((out ++ fileItem ((((listed c (entries.take k)).length : ℕ) : ℤ) == 0) e).length : ℤ) ≤ maxSize := by
          by_cases hzero : (((listed c (entries.take k)).length : ℕ) : ℤ) = 0
          · obtain ⟨hnil, hfirst⟩ := hroom (hp.total.trans hzero)
            have hhead := listed_head he hshow (List.length_eq_zero_iff.mp (by omega))
            rw [hzero, hnil, List.nil_append]
            exact hfirst e hhead
          · have hlen := entryText_length he'
            rw [beq_eq_false_iff_ne.mpr hzero, fileItem_false, List.length_append, List.length_cons]
            omega
        have hserved : Serves env entries (k + 1)
            { w' with dwTotal := (((listed c (entries.take k)).length : ℕ) : ℤ) + 1 } :=
          ⟨hserves.first, hserves.next, hserves.patience⟩
        obtain ⟨w'', added, hloop, hblock, hadvance⟩ := ih _ (by omega) hserved hpos hfits fun hzero => by
          have hnat : (((listed c (entries.take k)).length : ℕ) : ℤ) + 1 = 0 := hzero
          omega
        rw [List.append_assoc] at hblock hloop
        exact ⟨w'', _, hloop, hblock, hadvance.step hbody hcalls⟩
      · have hlisted := @listed_take_succ c _ _ _ he
        rw [if_neg hshow, List.append_nil] at hlisted
        rw [if_pos (hskipped.mpr hshow)]
        have hpos : Position c entries (k + 1) w' := by
          refine ⟨hstage, hlt', hpath.trans hp.path, ?_, fun _ => hhandle, hfault⟩
          rw [hlisted, htotal, hp.total]
        obtain ⟨w'', added, hloop, hblock, hadvance⟩ := ih out (by omega) hserves hpos hout fun hzero =>
          hroom (htotal.symm.trans hzero)
        refine ⟨w'', added, hloop, hblock, ?_⟩
        have hstep := @Advance.step c entries maxSize k w w' w'' out [] added
        rw [List.append_nil, List.nil_append] at hstep
        exact hstep hadvance (by rw [hlisted, List.append_nil]) hcalls

/-! ## Whole listings -/

/-- A listing that has not ended, or has. -/
inductive Going (c : Core) (entries : List DirEntry) (s : Listing) : Prop
  | more : Position c entries s.read s.work → s.text = body (listed c (entries.take s.read)) →
      s.blocks.length ≤ s.read → Going c entries s
  | finished : s.work.dwOperStage = stageEnd →
      s.text = body (listed c entries) ++ (if entries = [] then nothing else closing) →
      s.blocks.length ≤ entries.length + 1 → Going c entries s

structure Invariant (c : Core) (entries : List DirEntry) (s : Listing) : Prop where
  going : Going c entries s
  blocks : ∀ b ∈ s.blocks, (b.text.length : ℤ) ≤ b.maxSize ∧ b.count ≠ -1
  noFault : s.work.world.fault = false

/-- With `GET` a call runs the loop. -/
theorem filesReadOneFileInfo_eq (hget : c.requestMethod = some .get) {w w' : Work} {maxSize : ℤ} {out : Bytes}
    (hstage : w.dwOperStage ≠ stageEnd)
    (hloop : filesLoop env c maxSize (env.patience + maxSize.toNat + 1) w [] = (w', out)) :
    filesReadOneFileInfo env c w maxSize = (w', out, if out.length > 0 then (out.length : ℤ) else -1) := by
  rw [filesReadOneFileInfo, if_neg (not_not.mpr hget), if_neg hstage, hloop]

theorem Position.stage_ne (hfew : entries.length < 2 ^ 32 - 1) {k : ℕ} {w : Work} (hp : Position c entries k w) :
    w.dwOperStage ≠ stageEnd := by
  have hle := hp.le
  rw [hp.stage]
  unfold stageEnd
  omega

theorem invariant_call (hget : c.requestMethod = some .get) (hlist : Listable c entries)
    (hplain : ∀ e ∈ entries, PlainEntry e) {s : Listing} (hs : Invariant c entries s) {maxSize : ℤ}
    (hstage : s.work.dwOperStage ≠ stageEnd) (hserves : Serves env entries s.read s.work)
    (hroomy : Roomy c entries s (.call env maxSize)) : Invariant c entries (s.call c env maxSize) := by
  obtain ⟨hlarge, hfirst⟩ := hroomy
  cases hs.going with
  | finished hended => exact absurd hended hstage
  | more hp htext hcount =>
    obtain ⟨w', added, hloop, hblock, hadvance⟩ := filesLoop_advance hlist hplain (env.patience + maxSize.toNat + 1)
      [] (by have := hserves.patience; omega) hserves hp (show (([] : Bytes).length : ℤ) ≤ maxSize by
        rw [List.length_nil]
        omega) fun hzero => ⟨rfl, hfirst hzero⟩
    rw [List.nil_append] at hloop hblock
    have hcall := filesReadOneFileInfo_eq hget hstage hloop
    have hnext : s.call c env maxSize = ⟨w', s.read + (w'.world.calls - s.work.world.calls), s.blocks ++
        [⟨maxSize, added, if added.length > 0 then (added.length : ℤ) else -1⟩]⟩ := by
      rw [Listing.call, hcall]
    have htext' : (s.call c env maxSize).text = body (listed c (entries.take s.read)) ++ added := by
      rw [hnext, Listing.text, List.flatMap_append, ← htext]
      exact congrArg (s.text ++ ·) (List.flatMap_singleton _ _)
    have hlen : (s.call c env maxSize).blocks.length = s.blocks.length + 1 := by
      rw [hnext]
      exact List.length_append
    have hadded : 0 < added.length := by
      cases hadvance with
      | more hle hp' hfull hsame hcalls =>
        rw [List.nil_append] at hfull
        omega
      | finished hend hfault hpos hsame => exact hpos
    refine ⟨?_, ?_, ?_⟩
    · cases hadvance with
      | @more k' hle hp' hfull hsame hcalls =>
        have hread : (s.call c env maxSize).read = k' := by
          rw [hnext]
          show s.read + (w'.world.calls - s.work.world.calls) = k'
          omega
        have hlt : s.read ≠ k' := by
          intro heq
          rw [← heq] at hsame
          have hzero := congrArg List.length hsame
          rw [List.length_append] at hzero
          omega
        refine .more ?_ ?_ ?_
        · rw [hread, hnext]
          exact hp'
        · rw [hread, htext', hsame]
        · rw [hread, hlen]
          omega
      | finished hend hfault hpos hsame =>
        refine .finished ?_ ?_ ?_
        · rw [hnext]
          exact hend
        · rw [htext', hsame]
        · rw [hlen]
          have hle := hp.le
          omega
    · intro b hb
      rw [hnext] at hb
      rcases List.mem_append.mp hb with hb | hb
      · exact hs.blocks b hb
      · rw [List.mem_singleton] at hb
        rw [hb]
        refine ⟨hblock, ?_⟩
        show (if added.length > 0 then (added.length : ℤ) else -1) ≠ -1
        rw [if_pos hadded]
        omega
    · rw [hnext]
      cases hadvance with
      | more hle hp' hfull hsame hcalls => exact hp'.noFault
      | finished hend hfault hpos hsame => exact hfault

/-- The request looks for the folder and closes it again. -/
theorem requested {w : Work} (hpath : (listFilter (queryPath c)).length < 128) :
    (filesOnRequestReceived env c w).dwOperStage = w.dwOperStage ∧
      (filesOnRequestReceived env c w).dwTotal = w.dwTotal ∧
      (filesOnRequestReceived env c w).world.fault = w.world.fault := by
  have hfits : ¬ 128 ≤ (listFilter (queryPath c)).length := not_le.mpr hpath
  unfold filesOnRequestReceived Work.setFilter
  simp only [if_neg hfits]
  unfold World.webFirstdir
  cases env.firstdir (w.setSsi SsiContext.zero).world.calls (listFilter (queryPath c)) with
  | none => exact ⟨rfl, rfl, rfl⟩
  | some e => exact ⟨rfl, rfl, rfl⟩

theorem invariant_init (hlist : Listable c entries) {s : Listing} (hs : (listings c entries).init s) :
    Invariant c entries s := by
  obtain ⟨env, w, hstage, htotal, hfault, rfl⟩ := hs
  obtain ⟨hstage', htotal', hfault'⟩ := @requested env c w hlist.path
  refine ⟨.more ⟨hstage'.trans hstage, Nat.zero_le _, filesOnRequestReceived_path env c w, ?_, fun h => absurd rfl h,
    hfault'.trans hfault⟩ rfl le_rfl, ?_, hfault'.trans hfault⟩
  · exact htotal'.trans htotal
  · intro b hb
    cases hb

theorem invariant_reach (hget : c.requestMethod = some .get) (hlist : Listable c entries)
    (hplain : ∀ e ∈ entries, PlainEntry e) {s : Listing}
    (hs : ((listings c entries).restrict (Roomy c entries)).Reach s) : Invariant c entries s := by
  refine RunSystem.Reach.invariant (M := (listings c entries).restrict (Roomy c entries))
    (fun s hinit => invariant_init hlist hinit) ?_ hs
  rintro s e s' hs ⟨hroomy, hstep⟩
  cases e with
  | call env maxSize =>
    obtain ⟨hstage, hserves, rfl⟩ := hstep
    exact invariant_call hget hlist hplain hs hstage hserves hroomy
  | others world =>
    obtain ⟨hfault, rfl⟩ := hstep
    refine ⟨?_, hs.blocks, hfault⟩
    cases hs.going with
    | more hp htext hcount => exact .more ⟨hp.stage, hp.le, hp.path, hp.total, hp.handle, hfault⟩ htext hcount
    | finished hend htext hcount => exact .finished hend htext hcount

/-- The text of the entries with its end is an object with their array. -/
theorem object_spells {result : ℤ} {items : List Json} {t : Bytes} (h : Json.SpellsItems items t) :
    Json.Spells (.object [(bytes "result", .number result), (bytes "data", .array items)])
      (bytes "\x7b\"result\":" ++ intText result ++ bytes ", \"data\":[" ++ t ++ closing) := by
  have hresult : bytes "\x7b\"result\":" = 123 :: (Json.quoted (bytes "result") ++ [58]) := by decide
  have hdata : bytes ", \"data\":[" = 44 :: ([32] ++ (Json.quoted (bytes "data") ++ [58, 91])) := by decide
  have hblank : Json.Blank [32] := by
    intro b hb
    exact .inl (List.mem_singleton.mp hb)
  have hall : bytes "\x7b\"result\":" ++ intText result ++ bytes ", \"data\":[" ++ t ++ closing =
      123 :: ((Json.quoted (bytes "result") ++ 58 :: (intText result ++
        44 :: ([32] ++ (Json.quoted (bytes "data") ++ 58 :: (91 :: (t ++ [93])))))) ++ [125]) := by
    rw [hresult, hdata, show closing = [93, 125] from rfl]
    simp only [List.append_assoc, List.cons_append, List.nil_append]
  rw [hall]
  exact .object (.more (by decide +kernel) (.number _) hblank (.last (by decide +kernel) (.array h)))

theorem listing_spells (hplain : ∀ e ∈ entries, PlainEntry e) (hlist : Listable c entries) :
    ∃ members, Json.Spells (.object members) (body (listed c entries) ++ if entries = [] then nothing else closing) ∧
      members.lookup (bytes "data") = some (.array ((listed c entries).map entryJson)) := by
  have hdata : (bytes "data" == bytes "result") = false := by decide
  have hlookup : ∀ result items, List.lookup (bytes "data")
      [(bytes "result", Json.number result), (bytes "data", .array items)] = some (.array items) := by
    intro result items
    simp [List.lookup, hdata]
  rcases hlist.shown with hnil | hsome
  · subst hnil
    exact ⟨_, object_spells .none, hlookup 0 []⟩
  · have hne : entries ≠ [] := by
      intro hnil
      rw [hnil] at hsome
      exact hsome rfl
    have hspells : ∀ e ∈ listed c entries, Json.Spells (entryJson e) (entryText e) :=
      fun e he => entryText_spells (hplain e (List.mem_of_mem_filter he))
    obtain ⟨e, es, hlisted⟩ := List.exists_cons_of_ne_nil hsome
    rw [hlisted] at hspells ⊢
    rw [if_neg hne]
    refine ⟨_, ?_, hlookup 1 _⟩
    have hitems : fileItem false = fun b => 44 :: entryText b := funext fileItem_false
    have hopening : opening = bytes "\x7b\"result\":" ++ intText 1 ++ bytes ", \"data\":[" := by decide
    rw [body, fileItem_true, hitems, hopening, List.append_assoc _ (entryText e)]
    exact object_spells (Json.spellsItems_cons hspells)

/-- A listing of a folder with an entry to list, or with none to read, is complete when every block has room. -/
theorem directory_listing (hget : c.requestMethod = some .get) (hplain : ∀ e ∈ entries, PlainEntry e)
    (hlist : Listable c entries) {s : Listing}
    (hs : ((listings c entries).restrict (Roomy c entries)).Reach s) : Complete c entries s := by
  obtain ⟨hgoing, hblocks, hfault⟩ := invariant_reach hget hlist hplain hs
  cases hgoing with
  | more hp htext hcount =>
    refine ⟨fun hend => absurd hend (hp.stage_ne hlist.few), hblocks, ?_, hfault⟩
    have hle := hp.le
    omega
  | finished hend htext hcount =>
    refine ⟨fun _ => ?_, hblocks, hcount, hfault⟩
    rw [htext]
    exact listing_spells hplain hlist

/-! ## Two folders -/

/-- A folder that is read once, from the second call to the surroundings on. -/
def folderEnv (entries : List DirEntry) : Env :=
  { Env.calm [] with
    firstdir := fun _ _ => entries.head?
    readdir := fun n _ => entries[n - 1]?
    patience := entries.length }

def listCore : Core := { Core.zero 0 with requestMethod := some .get }

/-- The listing before its first call. -/
def asked (c : Core) (entries : List DirEntry) : Listing :=
  ⟨filesOnRequestReceived (folderEnv entries) c (Work.zero World.boot), 0, []⟩

theorem asked_init (c : Core) (entries : List DirEntry) : (listings c entries).init (asked c entries) :=
  ⟨folderEnv entries, Work.zero World.boot, rfl, rfl, rfl, rfl⟩

/-- The folder answers as long as every call to it is counted. -/
theorem folderEnv_serves (entries : List DirEntry) {k : ℕ} {w : Work} (h : w.world.calls = k + 1) :
    Serves (folderEnv entries) entries k w := by
  refine ⟨fun _ => rfl, ?_, le_rfl⟩
  intro _ j _
  show entries[w.world.calls + j - 1]? = entries[k + j]?
  rw [h, Nat.add_right_comm, Nat.add_sub_cancel]

/-- The root of the listing, asked for by `path=/`. -/
def rootCore : Core := { listCore with requestPath := bytes "/api/files.cgi?path=/", posQuestion := 14 }

/-- A folder with a file and a folder in it. -/
def cacheFolder : List DirEntry :=
  [⟨true, [46], 0, 0⟩, ⟨true, [46, 46], 0, 0⟩, ⟨false, bytes "readme.txt", 12, 1600000000⟩,
    ⟨true, bytes "img", 0, 1600000000⟩]

theorem cacheFolder_plain : ∀ e ∈ cacheFolder, PlainEntry e := by
  have hall : ∀ e ∈ cacheFolder, (e.name ≠ [] ∧ e.name.length ≤ 127 ∧ ∀ b ∈ e.name, Json.Plain b) ∧
      -2147483648 ≤ e.size ∧ e.size < 2147483648 := by
    decide +kernel
  exact fun e he => ⟨(hall e he).1, (hall e he).2⟩

/-- It is listed in three blocks, with an entry in each of the first two. -/
def cacheListing (n : ℕ) : Listing :=
  (fun s => s.call rootCore (folderEnv cacheFolder) 250)^[n] (asked rootCore cacheFolder)

theorem directory_listing_cache :
    (cacheListing 3).work.dwOperStage = stageEnd ∧ (cacheListing 3).blocks.map (·.text.length) = [81, 53, 2] ∧
      Complete rootCore cacheFolder (cacheListing 3) := by
  have hspelled : Spelled rootCore := by
    intro p hp
    have hslash : queryPath rootCore = some [47] := by decide +kernel
    exact .inr (Option.some.inj (hp.symm.trans hslash))
  have hlist : Listable rootCore cacheFolder :=
    ⟨.inr (by decide +kernel), fun _ => .inl hspelled, by decide, by decide +kernel⟩
  have hroomy : ∀ s, Roomy rootCore cacheFolder s (.call (folderEnv cacheFolder) 250) := by
    refine fun s => ⟨by decide, fun _ e he => ?_⟩
    have hhead : ∀ e, (listed rootCore cacheFolder).head? = some e → ((fileItem true e).length : ℤ) ≤ 250 := by
      intro e he
      have hfirst : (listed rootCore cacheFolder).head? = some ⟨false, bytes "readme.txt", 12, 1600000000⟩ := by
        decide +kernel
      obtain rfl := Option.some.inj (hfirst.symm.trans he)
      decide +kernel
    exact hhead e he
  have hstep : ∀ n < 3, (cacheListing n).work.dwOperStage ≠ stageEnd ∧
      (cacheListing n).work.world.calls = (cacheListing n).read + 1 := by
    decide +kernel
  have hreach : ∀ n ≤ 3, ((listings rootCore cacheFolder).restrict (Roomy rootCore cacheFolder)).Reach
      (cacheListing n) := by
    intro n hn
    induction n with
    | zero => exact .init (asked_init _ _)
    | succ n ih =>
      obtain ⟨hstage, hcalls⟩ := hstep n hn
      refine .step (.call (folderEnv cacheFolder) 250) (ih (Nat.le_of_succ_le hn)) ⟨hroomy _, hstage, ?_, ?_⟩
      · exact folderEnv_serves _ hcalls
      · exact Function.iterate_succ_apply' _ n _
  exact ⟨by decide +kernel, by decide +kernel,
    directory_listing rfl cacheFolder_plain hlist (hreach 3 (le_refl 3))⟩

/-- The folders `.` and `..`. -/
def dots : List DirEntry := [⟨true, [46], 0, 0⟩, ⟨true, [46, 46], 0, 0⟩]

/-- The root of the listing with no other entry. -/
theorem directory_listing_fails :
    ¬ ∀ (c : Core) (entries : List DirEntry), c.requestMethod = some .get → (∀ e ∈ entries, PlainEntry e) →
      ∀ s, (listings c entries).Reach s → Complete c entries s := by
  intro h
  have hplain : ∀ e ∈ dots, PlainEntry e := by
    intro e he
    rcases List.mem_cons.mp he with rfl | he
    · exact ⟨by decide +kernel, by decide⟩
    · rw [List.mem_singleton.mp he]
      exact ⟨by decide +kernel, by decide⟩
  have hreach : (listings listCore dots).Reach ((asked listCore dots).call listCore (folderEnv dots) 1000) :=
    .step (.call (folderEnv dots) 1000) (.init (asked_init _ _)) ⟨by decide, folderEnv_serves _ rfl, rfl⟩
  obtain ⟨members, hspells, -⟩ := (h listCore dots rfl hplain _ hreach).json (by decide +kernel)
  have htext : ((asked listCore dots).call listCore (folderEnv dots) 1000).text = closing := by decide +kernel
  rw [htext] at hspells
  cases hspells.object_head

end Directory
end StraightHttpd
