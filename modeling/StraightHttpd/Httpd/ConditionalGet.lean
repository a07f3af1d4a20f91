import StraightHttpd.Httpd.HttpCore
import StraightHttpd.NumberText

/-! # Dates in headers (`sys_arch.c`, `http_web.c`)

`gmt4http` writes a file time at fixed places, and `parseHttpDate` reads the numbers back from there.
A page that has not changed since the time a client echoes is answered with 304.
-/

set_option autoImplicit false

namespace StraightHttpd
open CMemory

/-! ## Writing a date -/

def wdayNames : List Bytes := -- wday_name
  [bytes "Sun", bytes "Mon", bytes "Tue", bytes "Wed", bytes "Thu", bytes "Fri", bytes "Sat"]

/-- `%02d` -/
def twoDigits (n : ℤ) : Bytes := if 0 ≤ n ∧ n < 10 then 48 :: intText n else intText n

/-- `gmt4http`, from what `gmtime` makes of the time. -/
def gmt4http (tm : Tm) (wday : ℕ) : Bytes :=
  (wdayNames.getD wday []).take 3 ++ (bytes ", " ++ (twoDigits tm.mday ++ (32 :: ((monNames.getD tm.mon.toNat []).take 3 ++
    (32 :: (intText (1900 + tm.year) ++ (32 :: (twoDigits tm.hour ++ (58 :: (twoDigits tm.min ++
      (58 :: (twoDigits tm.sec ++ bytes " GMT"))))))))))))

example : gmt4http { sec := 0, min := 28, hour := 7, mday := 2, mon := 9, year := 115 } 5 =
    bytes "Fri, 02 Oct 2015 07:28:00 GMT" := by decide

/-- The calendar of the years that 32-bit times fall in, 1970 to 2106. -/
structure Civil (tm : Tm) (wday : ℕ) : Prop where
  sec : 0 ≤ tm.sec ∧ tm.sec ≤ 60
  min : 0 ≤ tm.min ∧ tm.min ≤ 59
  hour : 0 ≤ tm.hour ∧ tm.hour ≤ 23
  mday : 1 ≤ tm.mday ∧ tm.mday ≤ 31
  mon : 0 ≤ tm.mon ∧ tm.mon ≤ 11
  year : 70 ≤ tm.year ∧ tm.year ≤ 206
  wday : wday ≤ 6

/-! ## Reading it back -/

theorem intText_natCast (n : ℕ) : intText n = natText n := by
  have hn : ¬ ((n : ℤ) < 0) := by omega
  rw [intText, if_neg hn]
  rfl

/-- A number at a fixed place: two digits. -/
theorem twoDigits_spec {n : ℤ} (h : 0 ≤ n ∧ n < 100) : (twoDigits n).length = 2 ∧
    (∀ b ∈ twoDigits n, isDigit b = true) ∧ (digits 0 (twoDigits n) : ℤ) = n := by
  obtain ⟨m, rfl⟩ := Int.eq_ofNat_of_zero_le h.1
  rw [twoDigits, intText_natCast]
  by_cases hm : m < 10
  · rw [if_pos (by omega), natText_small hm]
    refine ⟨rfl, ?_, ?_⟩
    · intro b hb
      rcases List.mem_cons.mp hb with rfl | hb
      · rfl
      · obtain rfl := List.mem_singleton.mp hb
        exact isDigit_ofNat hm
    · rw [digits_of_digit rfl, digits_of_digit (isDigit_ofNat hm), digit_value hm]
      simp [digits]
  · rw [if_neg (by omega)]
    refine ⟨?_, natText_isDigit m, by rw [digits_natText]⟩
    rw [natText_step (by omega), natText_small (by omega : m / 10 < 10)]
    rfl

/-- A year is four digits. -/
theorem year_length {n : ℕ} (h : 1000 ≤ n ∧ n < 10000) : (natText n).length = 4 := by
  rw [natText_step (by omega), natText_step (by omega : 10 ≤ n / 10), natText_step (by omega : 10 ≤ n / 10 / 10),
    natText_small (by omega)]
  rfl

theorem drop_of_length {a : Bytes} {n : ℕ} (h : a.length = n) (b : Bytes) : (a ++ b).drop n = b := by
  rw [← h, List.drop_left]

/-- A number at a fixed place is read up to the byte behind it. -/
theorem ston_number {t : Bytes} {n : ℤ} (ht : ∀ b ∈ t, isDigit b = true) (hne : t ≠ []) (hn : (digits 0 t : ℤ) = n)
    (hrange : n < 10000) {b : UInt8} (hb : isDigit b = false) (u : Bytes) : ston (t ++ b :: u) = n := by
  rw [ston_append ht hne hb, hn, wrap32_of_range (by omega)]

/-- The comparison of `n` characters does not look behind them. -/
theorem strnicmpText_append {a : Bytes} {n : ℕ} (h : n ≤ a.length) (r t : Bytes) :
    strnicmpText (a ++ r) t n = strnicmpText a t n := by
  induction n generalizing a t with
  | zero => simp [strnicmpText]
  | succ n ih =>
    cases a with
    | nil => exact absurd h (Nat.not_succ_le_zero n)
    | cons x a =>
      cases t with
      | nil => rfl
      | cons y t =>
        rw [List.cons_append, strnicmpText, strnicmpText, ih (Nat.le_of_succ_le_succ h)]

theorem strnicmp_append {a : Bytes} (h0 : (0 : UInt8) ∉ a) {n : ℕ} (h : n ≤ a.length) (r t : Bytes) :
    strnicmp (a ++ r) t n = strnicmp a t n := by
  rw [strnicmp, strnicmp, cstr_append h0, cstr_of_no_nul h0, strnicmpText_append h]

/-- The name of a month is found in the table. -/
theorem month_found {i : ℕ} (h : i < 12) (r : Bytes) :
    (monNames.getD i []).take 3 = monNames.getD i [] ∧ (monNames.getD i []).length = 3 ∧
      monNames.findIdx? (fun m => strnicmp (monNames.getD i [] ++ r) m 3 == 0) = some i := by
  have hname : (monNames.getD i []).length = 3 ∧ (0 : UInt8) ∉ monNames.getD i [] ∧
      monNames.findIdx? (fun m => strnicmp (monNames.getD i []) m 3 == 0) = some i := by
    revert i
    decide +kernel
  obtain ⟨hlength, h0, hfind⟩ := hname
  refine ⟨List.take_of_length_le (le_of_eq hlength), hlength, ?_⟩
  have hsame : (fun m => strnicmp (monNames.getD i [] ++ r) m 3 == 0) =
      fun m => strnicmp (monNames.getD i []) m 3 == 0 := by
    funext m
    rw [strnicmp_append h0 (le_of_eq hlength.symm)]
  rw [hsame, hfind]

theorem wday_length {i : ℕ} (h : i ≤ 6) : ((wdayNames.getD i []).take 3).length = 3 := by
  interval_cases i <;> rfl

/-- What `gmt4http` writes, `parseHttpDate` reads. -/
theorem parseHttpDate_gmt4http (env : Env) {tm : Tm} {wday : ℕ} (h : Civil tm wday) (r : Bytes) :
    parseHttpDate env (gmt4http tm wday ++ r) = env.mkgmtime tm := by
  obtain ⟨hd2, hdd, hdv⟩ := @twoDigits_spec tm.mday (by have := h.mday; omega)
  obtain ⟨hh2, hhd, hhv⟩ := @twoDigits_spec tm.hour (by have := h.hour; omega)
  obtain ⟨hn2, hnd, hnv⟩ := @twoDigits_spec tm.min (by have := h.min; omega)
  obtain ⟨hs2, hsd, hsv⟩ := @twoDigits_spec tm.sec (by have := h.sec; omega)
  have hmon := h.mon
  have hyear := h.year
  obtain ⟨y, hy⟩ : ∃ y : ℕ, 1900 + tm.year = y := ⟨(1900 + tm.year).toNat, by omega⟩
  have hy4 : (natText y).length = 4 := year_length (by omega)
  have hw3 := wday_length h.wday
  have hplace {a : Bytes} {n : ℕ} (ha : a.length = n) (b : UInt8) (u : Bytes) : (a ++ b :: u).drop (n + 1) = u := by
    rw [← List.drop_drop, drop_of_length ha]
    rfl
  -- the text from each of the numbers on
  obtain ⟨t6, h6⟩ : ∃ t6, t6 = twoDigits tm.sec ++ 32 :: (bytes "GMT" ++ r) := ⟨_, rfl⟩
  obtain ⟨t5, h5⟩ : ∃ t5, t5 = twoDigits tm.min ++ 58 :: t6 := ⟨_, rfl⟩
  obtain ⟨t4, h4⟩ : ∃ t4, t4 = twoDigits tm.hour ++ 58 :: t5 := ⟨_, rfl⟩
  obtain ⟨t3, h3⟩ : ∃ t3, t3 = natText y ++ 32 :: t4 := ⟨_, rfl⟩
  obtain ⟨t2, h2⟩ : ∃ t2, t2 = monNames.getD tm.mon.toNat [] ++ 32 :: t3 := ⟨_, rfl⟩
  obtain ⟨t1, h1⟩ : ∃ t1, t1 = twoDigits tm.mday ++ 32 :: t2 := ⟨_, rfl⟩
  obtain ⟨hmtake, hm3, hmfind⟩ := @month_found tm.mon.toNat (by omega) (32 :: t3)
  have hgmt : bytes " GMT" = 32 :: bytes "GMT" := by decide
  have hs : gmt4http tm wday ++ r = (wdayNames.getD wday []).take 3 ++ (bytes ", " ++ t1) := by
    rw [gmt4http, hmtake, hy, intText_natCast, h1, h2, h3, h4, h5, h6, hgmt]
    simp only [List.append_assoc, List.cons_append]
  generalize gmt4http tm wday ++ r = s at hs
  have d5 : s.drop 5 = t1 := by
    rw [hs, show 5 = 3 + 2 from rfl, ← List.drop_drop, drop_of_length hw3]
    rfl
  have d8 : s.drop 8 = t2 := by
    rw [show 8 = 5 + (2 + 1) from rfl, ← List.drop_drop, d5, h1, hplace hd2]
  have d12 : s.drop 12 = t3 := by
    rw [show 12 = 8 + (3 + 1) from rfl, ← List.drop_drop, d8, h2, hplace hm3]
  have d17 : s.drop 17 = t4 := by
    rw [show 17 = 12 + (4 + 1) from rfl, ← List.drop_drop, d12, h3, hplace hy4]
  have d20 : s.drop 20 = t5 := by
    rw [show 20 = 17 + (2 + 1) from rfl, ← List.drop_drop, d17, h4, hplace hh2]
  have d23 : s.drop 23 = t6 := by
    rw [show 23 = 20 + (2 + 1) from rfl, ← List.drop_drop, d20, h5, hplace hn2]
  have htwo {t : Bytes} (ht : t.length = 2) : t ≠ [] := by
    rintro rfl
    cases ht
  have hsec : ston (s.drop 23) = tm.sec := by
    rw [d23, h6]
    exact ston_number hsd (htwo hs2) hsv (by have := h.sec; omega) rfl _
  have hmin : ston (s.drop 20) = tm.min := by
    rw [d20, h5]
    exact ston_number hnd (htwo hn2) hnv (by have := h.min; omega) rfl _
  have hhour : ston (s.drop 17) = tm.hour := by
    rw [d17, h4]
    exact ston_number hhd (htwo hh2) hhv (by have := h.hour; omega) rfl _
  have hmday : ston (s.drop 5) = tm.mday := by
    rw [d5, h1]
    exact ston_number hdd (htwo hd2) hdv (by have := h.mday; omega) rfl _
  have hyears : ston (s.drop 12) = 1900 + tm.year := by
    rw [d12, h3]
    refine ston_number (natText_isDigit y) (natText_ne_nil y) ?_ (by omega) rfl _
    rw [digits_natText, hy]
  have hmonth : (tm.mon.toNat : ℤ) = tm.mon := Int.toNat_of_nonneg hmon.1
  have hyear' : 1900 + tm.year - 1900 = tm.year := by omega
  unfold parseHttpDate
  rw [hsec, hmin, hhour, hmday, hyears, d8, h2, hmfind]
  simp only [hmonth, hyear']

/-! ## The header line and the answer -/

def ifModifiedSince : Bytes := bytes "If-Modified-Since: "

/-- The line is taken for what it is. -/
theorem headerLine_ifModified (env : Env) (s : Sys) (t : Bytes) (n : ℕ) :
    (s.headerLine env (ifModifiedSince ++ t) n).core.ifModified = parseHttpDate env t := by
  have h0 : (0 : UInt8) ∉ ifModifiedSince := by decide +kernel
  have hname (name : Bytes) (hl : name.length ≤ ifModifiedSince.length) :
      isHeader (ifModifiedSince ++ t) name = isHeader ifModifiedSince name := by
    rw [isHeader, isHeader, strnicmp_append h0 hl]
  have hlength := hname (bytes "Content-Length:") (by decide +kernel)
  have hconnection := hname (bytes "Connection:") (by decide +kernel)
  have hencoding := hname (bytes "Transfer-Encoding:") (by decide +kernel)
  have hexpect := hname (bytes "Expect:") (by decide +kernel)
  have hmodified := hname (bytes "If-Modified-Since:") (by decide +kernel)
  have hdrop : (ifModifiedSince ++ t).drop 19 = t := drop_of_length (by decide +kernel) t
  unfold Sys.headerLine
  rw [if_neg (by rw [hlength]; decide +kernel), if_neg (by rw [hconnection]; decide +kernel),
    if_neg (by rw [hencoding]; decide +kernel), if_neg (by rw [hexpect]; decide +kernel),
    if_pos (by rw [hmodified]; decide +kernel), hdrop]

theorem gmt4http_length {tm : Tm} {wday : ℕ} (h : Civil tm wday) : (gmt4http tm wday).length = 29 := by
  obtain ⟨hd2, -, -⟩ := @twoDigits_spec tm.mday (by have := h.mday; omega)
  obtain ⟨hh2, -, -⟩ := @twoDigits_spec tm.hour (by have := h.hour; omega)
  obtain ⟨hn2, -, -⟩ := @twoDigits_spec tm.min (by have := h.min; omega)
  obtain ⟨hs2, -, -⟩ := @twoDigits_spec tm.sec (by have := h.sec; omega)
  have hmon := h.mon
  have hyear := h.year
  obtain ⟨y, hy⟩ : ∃ y : ℕ, 1900 + tm.year = y := ⟨(1900 + tm.year).toNat, by omega⟩
  have hy4 : (natText y).length = 4 := year_length (by omega)
  obtain ⟨hmtake, hm3, -⟩ := @month_found tm.mon.toNat (by omega) []
  have hcomma : (bytes ", ").length = 2 := rfl
  have hgmt : (bytes " GMT").length = 4 := rfl
  rw [gmt4http, hmtake, hy, intText_natCast]
  simp only [List.length_append, List.length_cons, wday_length h.wday, hd2, hh2, hn2, hs2, hy4, hm3, hcomma, hgmt]

/-! ## The answer -/

/-- A page that is no SSI page, with the time of its file. -/
structure PageTime (env : Env) (c : Core) (w : Work) (t : ℕ) : Prop where
  plain : isSsi (chunkSsi c (defaultPage w)).extension = false
  time : ∀ n, env.ftime n (underWebroot (chunkSsi c (defaultPage w)).responsePath) % 2 ^ 32 = t

/-- The file of the page can be opened. -/
def Opens (env : Env) (c : Core) (w : Work) : Prop :=
  env.fopen (chunkSsi c (defaultPage w)).world.calls (webPath (chunkSsi c (defaultPage w)).responsePath)
    (bytes "rb") = true

theorem sniffGzip_page (env : Env) (w : Work) (fp : Fp) : (sniffGzip env w fp).extension = w.extension ∧
    (sniffGzip env w fp).responsePath = w.responsePath ∧ (sniffGzip env w fp).result = w.result := by
  unfold sniffGzip
  split
  · exact ⟨rfl, rfl, rfl⟩
  · exact ⟨rfl, rfl, rfl⟩

/-- The request is answered from the time of the file. -/
theorem lastModifiedLine_time {env : Env} (c : Core) {w : Work} {t : ℕ} (hplain : isSsi w.extension = false)
    (htime : ∀ n, env.ftime n (underWebroot w.responsePath) % 2 ^ 32 = t) (ht : 0 < t) :
    lastModifiedLine env c w = if c.ifModified ≠ 0 ∧ (t : ℤ) ≤ c.ifModified
      then ({ w with world := (w.world.webFtime env w.responsePath).1 },
        bytes "Last-Modified: " ++ (env.gmt t).take 46, false)
      else ({ w with world := (w.world.webFtime env w.responsePath).1 },
        bytes "Last-Modified: " ++ (env.gmt t).take 46 ++ crlf, true) := by
  have hread : w.world.webFtime env w.responsePath = ((w.world.webFtime env w.responsePath).1, t) :=
    Prod.ext rfl (htime _)
  have hssi : ¬ isSsi w.extension = true := by simp [hplain]
  unfold lastModifiedLine
  rw [if_neg hssi, hread]
  simp only [if_neg (Nat.ne_of_gt ht)]

/-- What `WEB_RequestReceived` makes of a page that opens: a 304, or the page with its time. -/
theorem webRequestReceived_time {env : Env} {c : Core} {w : Work} {t : ℕ} (hpage : PageTime env c w t)
    (hopens : Opens env c w) (ht : 0 < t) :
    (c.ifModified ≠ 0 ∧ (t : ℤ) ≤ c.ifModified → (webRequestReceived env c w).result = -304) ∧
      (¬ (c.ifModified ≠ 0 ∧ (t : ℤ) ≤ c.ifModified) →
        (webRequestReceived env c w).result = (chunkSsi c (defaultPage w)).result ∧
        (webRequestReceived env c w).ssiCtx.lastModified =
          bytes "Last-Modified: " ++ (env.gmt t).take 46 ++ crlf) := by
  obtain ⟨hplain, htime⟩ := hpage
  have hopen := hopens
  unfold Opens at hopen
  unfold webRequestReceived
  simp only
  generalize chunkSsi c (defaultPage w) = w' at hplain htime hopen
  obtain ⟨world, h, hfopen⟩ : ∃ world h, w'.world.webFopen env c.sid w'.responsePath (bytes "rb") =
      (world, .handle h) := by
    unfold World.webFopen
    simp only [hopen, if_true]
    exact ⟨_, _, rfl⟩
  rw [hfopen]
  obtain ⟨hext, hpath, hresult⟩ := sniffGzip_page env { w' with world := world } (.handle h)
  have hline := @lastModifiedLine_time env c (sniffGzip env { w' with world := world } (.handle h)) t
    (by rw [hext]; exact hplain) (by rw [hpath]; exact htime) ht
  simp only [pageOpened]
  rw [hline]
  constructor
  · intro hold
    rw [if_pos hold]
  · intro hnew
    rw [if_neg hnew]
    exact ⟨hresult, rfl⟩

theorem result_chunkSsi (c : Core) (w : Work) : (chunkSsi c (defaultPage w)).result = w.result := by
  unfold chunkSsi defaultPage
  split_ifs <;> rfl

/-- A page that does not open is not found. -/
theorem webRequestReceived_absent {env : Env} {c : Core} {w : Work}
    (h : ¬ Opens env c w) : (webRequestReceived env c w).result = -404 := by
  unfold Opens at h
  unfold webRequestReceived
  simp only
  generalize chunkSsi c (defaultPage w) = w' at h
  have hfopen : ∃ world, w'.world.webFopen env c.sid w'.responsePath (bytes "rb") = (world, .null) := by
    unfold World.webFopen
    simp only [if_neg h]
    exact ⟨_, rfl⟩
  obtain ⟨world, hfopen⟩ := hfopen
  rw [hfopen]

/-- A client that echoes the time of a page is answered with 304 while the page is unchanged, and never when it is
newer. -/
theorem conditional_get {env : Env} {t : ℕ} (ht : 0 < t ∧ t < 2 ^ 32) {tm : Tm} {wday : ℕ} (hcivil : Civil tm wday)
    (hgmt : env.gmt t = gmt4http tm wday) (hinverse : env.mkgmtime tm = t) :
    (∀ (s : Sys) (rest : Bytes) (n : ℕ),
        (s.headerLine env (ifModifiedSince ++ (env.gmt t ++ 0 :: rest)) n).core.ifModified = t) ∧
      (∀ (c : Core) (w : Work), PageTime env c w t → Opens env c w → c.ifModified = 0 →
        (webRequestReceived env c w).ssiCtx.lastModified = bytes "Last-Modified: " ++ env.gmt t ++ crlf) ∧
      (∀ (c : Core) (w : Work), PageTime env c w t → Opens env c w → c.ifModified = t →
        (webRequestReceived env c w).result = -304) ∧
      ∀ (c : Core) (w : Work) (later : ℕ), PageTime env c w later → t < later → c.ifModified = t →
        w.result ≠ -304 → (webRequestReceived env c w).result ≠ -304 := by
  have hlength : (env.gmt t).take 46 = env.gmt t := by
    refine List.take_of_length_le ?_
    rw [hgmt, gmt4http_length hcivil]
    decide
  refine ⟨fun s rest n => ?_, fun c w hpage hopens hnone => ?_, fun c w hpage hopens hecho => ?_,
    fun c w later hpage hlater hecho hresult => ?_⟩
  · rw [headerLine_ifModified, hgmt, parseHttpDate_gmt4http env hcivil, hinverse]
  · have hnew : ¬ (c.ifModified ≠ 0 ∧ (t : ℤ) ≤ c.ifModified) := fun h => h.1 hnone
    rw [((webRequestReceived_time hpage hopens ht.1).2 hnew).2, hlength]
  · refine (webRequestReceived_time hpage hopens ht.1).1 ⟨?_, le_of_eq hecho.symm⟩
    rw [hecho]
    omega
  · by_cases hopens : Opens env c w
    · have hnew : ¬ (c.ifModified ≠ 0 ∧ (later : ℤ) ≤ c.ifModified) := by
        rw [hecho]
        omega
      rw [((webRequestReceived_time hpage hopens (by omega)).2 hnew).1, result_chunkSsi]
      exact hresult
    · rw [webRequestReceived_absent hopens]
      decide

/-- A Friday in 2015. -/
def october : Tm := { sec := 0, min := 28, hour := 7, mday := 2, mon := 9, year := 115 }

/-- Surroundings whose calendar knows that Friday. -/
def octoberEnv : Env :=
  { Env.calm [] with gmt := fun _ => gmt4http october 5, mkgmtime := fun _ => 1443770880, ftime := fun _ _ => 1443770880 }

/-- The page is written once more. -/
def laterEnv : Env := { octoberEnv with ftime := fun _ _ => 1443770881 }

/-- The client that echoes this time, and the page that it asks for. -/
def echoing : Core := { Core.zero 0 with requestMethod := some .get, ifModified := 1443770880 }

def octoberPage : Work := { Work.zero World.boot with responsePath := bytes "/logo.png", extension := bytes "png" }

theorem conditional_get_october :
    ((Sys.zero 0 World.boot).headerLine octoberEnv
        (ifModifiedSince ++ (octoberEnv.gmt 1443770880 ++ [0])) 48).core.ifModified = 1443770880 ∧
      (webRequestReceived octoberEnv { echoing with ifModified := 0 } octoberPage).ssiCtx.lastModified =
        bytes "Last-Modified: " ++ octoberEnv.gmt 1443770880 ++ crlf ∧
      (webRequestReceived octoberEnv echoing octoberPage).result = -304 ∧
      (webRequestReceived laterEnv echoing octoberPage).result ≠ -304 := by
  have hcivil : Civil october 5 :=
    ⟨by decide, by decide, by decide, by decide, by decide, by decide, by decide⟩
  have hpage (c : Core) : PageTime octoberEnv c octoberPage 1443770880 := ⟨rfl, fun _ => rfl⟩
  obtain ⟨hline, hfirst, hecho, -⟩ := @conditional_get octoberEnv 1443770880 (by decide) october 5 hcivil rfl rfl
  obtain ⟨-, -, -, hnewer⟩ := @conditional_get laterEnv 1443770880 (by decide) october 5 hcivil rfl rfl
  exact ⟨hline _ [] 48, hfirst _ _ (hpage _) rfl rfl, hecho _ _ (hpage _) rfl rfl,
    hnewer _ _ 1443770881 ⟨rfl, fun _ => rfl⟩ (by decide) rfl (by decide)⟩

end StraightHttpd
