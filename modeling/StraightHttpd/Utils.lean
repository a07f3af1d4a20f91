import StraightHttpd.Lib.CMemory

/-! # Text helpers (`utils.c`)

`long` is 32 bits wide. A routine that works in place takes the memory from its argument on and
returns it modified.
-/

set_option autoImplicit false

namespace StraightHttpd
open CMemory

/-! ## Numbers -/

def stonDigits (result : ℤ) : Bytes → ℤ
  | [] => result
  | c :: p => if isDigit c then stonDigits (wrap32 (result * 10 + (c.toNat - 48))) p else result

/-- `ston`: blanks, `-`, `+`, digits. -/
def ston (s : Bytes) : ℤ :=
  let p := s.dropWhile fun c => c == 32 || c == 9
  let (sign, p) : ℤ × Bytes := match p with
    | 45 :: q => (-1, q)
    | _ => (1, p)
  let p := match p with
    | 43 :: q => q
    | _ => p
  wrap32 (sign * stonDigits 0 p)

/-- The text behind the first `.`, if there is one. -/
def afterDot (p : Bytes) : Option Bytes := (strchr p 46).map fun i => p.drop (i + 1)

def u32 (n : ℤ) : ℕ := (n % 2 ^ 32).toNat

/-- `GetIpAddress`: the first number is cut to a byte, the others are added as they are. -/
def getIpAddress (addr : Bytes) : ℕ :=
  let add (ip : ℕ) (p : Bytes) : ℕ := u32 (ip * 256 + ston p)
  let ip := (ston addr % 256).toNat
  match afterDot addr with
  | none => ip
  | some p =>
    match afterDot p with
    | none => add ip p
    | some q =>
      match afterDot q with
      | none => add (add ip p) q
      | some r => add (add (add ip p) q) r

example : getIpAddress (bytes "192.168.5.58") = 0xC0A8053A := by decide

/-- The variables of `ntos`. -/
structure Ntos where
  n : ℤ
  first : Bool
  i : ℕ
  s : Bytes

/-- A round of its loop. `n / div` divides without sign. -/
def ntosRound (div : ℕ) (v : Ntos) : Ntos :=
  let remain := u32 v.n / div
  let v := if remain = 0 then v else { v with n := wrap32 (v.n - (div * remain : ℕ)), first := false }
  if v.first then v
  else { v with s := poke v.s v.i [peek (bytes "0123456789") remain, 0], i := v.i + 1 }

/-- The loop, from the divisor `10 ^ k` down to 1. -/
def ntosLoop : ℕ → Ntos → Ntos
  | 0, v => ntosRound 1 v
  | k + 1, v => ntosLoop k (ntosRound (10 ^ (k + 1)) v)

/-- `ntos`: the memory after the text of `n` has been written to `s`. -/
def ntos (n : ℤ) (s : Bytes) : Bytes :=
  if n = 0 then poke s 0 [48, 0]
  else if n < 0 then (ntosLoop 9 ⟨wrap32 (n * -1), true, 1, poke s 0 [45]⟩).s
  else (ntosLoop 9 ⟨n, true, 0, s⟩).s

example : ntos (-120) (bytes "????????") = bytes "-120" ++ 0 :: bytes "???" := by decide +kernel

/-! ## Comparison without regard to case -/

def toUpper (c : UInt8) : UInt8 := if 97 ≤ c && c ≤ 122 then c &&& 0xDF else c

def strnicmpText : Bytes → Bytes → ℕ → ℤ
  | _, _, 0 => 0
  | [], [], _ => 0
  | _ :: _, [], _ => 1
  | [], _ :: _, _ => -1
  | a :: s, b :: t, n + 1 =>
    if toUpper a < toUpper b then -1 else if toUpper b < toUpper a then 1 else strnicmpText s t n

/-- `Strnicmp` -/
def strnicmp (str1 str2 : Bytes) (n : ℕ) : ℤ := strnicmpText (cstr str1) (cstr str2) n

/-- Bytes other than NUL and letters compare equal to themselves only. -/
def Sign (b : UInt8) : Prop := b ≠ 0 ∧ ¬ (65 ≤ b ∧ b ≤ 90) ∧ ¬ (97 ≤ b ∧ b ≤ 122)

instance (b : UInt8) : Decidable (Sign b) := inferInstanceAs (Decidable (_ ∧ _ ∧ _))

theorem toUpper_lower {a : UInt8} (h : 97 ≤ a) (h' : a ≤ 122) : 65 ≤ toUpper a ∧ toUpper a ≤ 90 := by
  have hn : a = UInt8.ofNat a.toNat := by simp
  have h1 : 97 ≤ a.toNat := h
  have h2 : a.toNat ≤ 122 := h'
  rw [hn]
  generalize a.toNat = n at h1 h2
  interval_cases n <;> decide

theorem toUpper_of_not_lower {a : UInt8} (h : ¬ (97 ≤ a ∧ a ≤ 122)) : toUpper a = a := by
  simp only [toUpper, Bool.and_eq_true, decide_eq_true_eq, if_neg h]

def upper (s : Bytes) : Bytes := s.map toUpper

theorem toUpper_toUpper (a : UInt8) : toUpper (toUpper a) = toUpper a := by
  by_cases ha : 97 ≤ a ∧ a ≤ 122
  · obtain ⟨-, hle⟩ := toUpper_lower ha.1 ha.2
    refine toUpper_of_not_lower fun h => ?_
    have hlt : (97 : UInt8).toNat ≤ (90 : UInt8).toNat := h.1.trans hle
    exact absurd hlt (by decide)
  · rw [toUpper_of_not_lower ha, toUpper_of_not_lower ha]

theorem upper_upper (s : Bytes) : upper (upper s) = upper s := by
  rw [upper, upper, List.map_map]
  exact List.map_congr_left fun a _ => toUpper_toUpper a

theorem Sign.toUpper_eq_iff {a b : UInt8} (hb : Sign b) : toUpper a = toUpper b ↔ a = b := by
  rw [toUpper_of_not_lower hb.2.2]
  constructor
  · intro h
    by_cases ha : 97 ≤ a ∧ a ≤ 122
    · exact absurd (h ▸ toUpper_lower ha.1 ha.2) hb.2.1
    · rwa [toUpper_of_not_lower ha] at h
  · rintro rfl
    exact toUpper_of_not_lower hb.2.2

/-- Comparing with a text of signs, over its whole length, asks for a prefix. -/
theorem strnicmp_sign_iff {t : Bytes} (ht : ∀ b ∈ t, Sign b) (m : Bytes) :
    strnicmp m t t.length = 0 ↔ t <+: m := by
  have h0 : (0 : UInt8) ∉ t := fun h => (ht 0 h).1 rfl
  rw [strnicmp, cstr_of_no_nul h0, ← prefix_cstr_iff h0]
  generalize cstr m = s
  clear h0 m
  induction t generalizing s with
  | nil => simp [strnicmpText]
  | cons b t ih =>
    cases s with
    | nil => simp [strnicmpText]
    | cons a s =>
      have hb := (ht b List.mem_cons_self).toUpper_eq_iff (a := a)
      have ih := ih (fun c hc => ht c (List.mem_cons_of_mem _ hc)) s
      rw [List.length_cons, strnicmpText, List.cons_prefix_cons]
      split
      next hlt =>
        have hne : b ≠ a := fun h => absurd (hb.mpr h.symm) (UInt8.ne_of_lt hlt)
        simp [hne]
      next hlt =>
        split
        next hgt =>
          have hne : b ≠ a := fun h => absurd (hb.mpr h.symm).symm (UInt8.ne_of_lt hgt)
          simp [hne]
        next hgt =>
          have he : a = b := hb.mp (UInt8.le_antisymm (UInt8.not_lt.mp hgt) (UInt8.not_lt.mp hlt))
          rw [he]
          exact ih.trans (and_iff_right rfl).symm

/-- A text begins with a name, in upper or lower case. -/
def Begins (t name : Bytes) : Prop := (t.take name.length).map toUpper = name.map toUpper

instance (t name : Bytes) : Decidable (Begins t name) :=
  inferInstanceAs (Decidable ((t.take name.length).map toUpper = name.map toUpper))

/-- Comparing with a name, over its whole length, asks for a beginning. -/
theorem strnicmp_begins_iff {t name : Bytes} (ht : (0 : UInt8) ∉ t) (hname : (0 : UInt8) ∉ name) :
    strnicmp t name name.length = 0 ↔ Begins t name := by
  rw [strnicmp, cstr_of_no_nul ht, cstr_of_no_nul hname, Begins]
  clear ht hname
  induction name generalizing t with
  | nil => exact iff_of_true (by unfold strnicmpText; rfl) rfl
  | cons b name ih =>
    cases t with
    | nil => exact iff_of_false (show ¬ (-1 : ℤ) = 0 by decide) fun h => by cases h
    | cons a t =>
      rw [List.length_cons, strnicmpText, List.take_succ_cons, List.map_cons, List.map_cons, List.cons.injEq, ← ih]
      by_cases hlt : toUpper a < toUpper b
      · rw [if_pos hlt]
        exact iff_of_false (by decide) fun h => absurd h.1 (UInt8.ne_of_lt hlt)
      rw [if_neg hlt]
      by_cases hgt : toUpper b < toUpper a
      · rw [if_pos hgt]
        exact iff_of_false (by decide) fun h => absurd h.1.symm (UInt8.ne_of_lt hgt)
      rw [if_neg hgt]
      have he : toUpper a = toUpper b := UInt8.le_antisymm (UInt8.not_lt.mp hgt) (UInt8.not_lt.mp hlt)
      exact ⟨fun h => ⟨he, h⟩, fun h => h.2⟩

theorem Begins.length {t name : Bytes} (h : Begins t name) : name.length ≤ t.length := by
  have hlen := congrArg List.length h
  rw [List.length_map, List.length_map, List.length_take] at hlen
  omega

/-- Two names that a text begins with agree where both have letters. -/
theorem Begins.agree {t name other : Bytes} (h : Begins t name) (h' : Begins t other) {n : ℕ}
    (hn : n ≤ name.length) (hn' : n ≤ other.length) :
    (name.map toUpper).take n = (other.map toUpper).take n := by
  rw [← h, ← h', ← List.map_take, ← List.map_take, List.take_take, List.take_take, Nat.min_eq_left hn,
    Nat.min_eq_left hn']

/-- The names are told apart by their first two letters. -/
theorem Begins.ne {t name other : Bytes} (h : Begins t name)
    (hne : (name.map toUpper).take 2 ≠ (other.map toUpper).take 2) (hn : 2 ≤ name.length)
    (hn' : 2 ≤ other.length) : ¬ Begins t other := fun h' => hne (h.agree h' hn hn')

/-- The six bits of a base64 character. Everything from `/` on that is not a letter, a digit or `+`
counts as `/`. -/
def b64Value (c : UInt8) : Option ℕ :=
  if 65 ≤ c && c ≤ 90 then some (c.toNat - 65)
  else if 97 ≤ c && c ≤ 122 then some (c.toNat - 97 + 26)
  else if isDigit c then some (c.toNat - 48 + 52)
  else if c = 43 then some 62
  else if 47 ≤ c then some 63
  else none

/-- The loop of `DecodeB64`: `none` for a bad character, else `resultCount`, `validCount` and the
bits not yet written. -/
def decodeB64Loop : ℕ → Bytes → (i resultCount validCount convered : ℕ) →
    Bytes × Option (ℕ × ℕ × ℕ)
  | 0, data, _, resultCount, validCount, convered => (data, some (resultCount, validCount, convered))
  | n + 1, data, i, resultCount, validCount, convered =>
    let c := peek data i
    if c = 0 then (data, some (resultCount, validCount, convered))
    else if c = 13 ∨ c = 10 ∨ c = 61 then
      decodeB64Loop n data (i + 1) resultCount validCount convered
    else match b64Value c with
      | none => (data, none)
      | some value =>
        let convered := convered * 64 + value
        if (validCount + 1) % 4 = 0 then
          let out := [UInt8.ofNat (convered / 65536), UInt8.ofNat (convered / 256),
            UInt8.ofNat convered]
          decodeB64Loop n (poke data resultCount out) (i + 1) (resultCount + 3) (validCount + 1) 0
        else decodeB64Loop n data (i + 1) resultCount (validCount + 1) convered

/-- `DecodeB64`: the memory after decoding in place, and the number of bytes. -/
def decodeB64 (data : Bytes) : Bytes × ℕ :=
  match decodeB64Loop data.length data 0 0 0 0 with
  | (data, none) => (data, 0)
  | (data, some (resultCount, validCount, convered)) =>
    let tail := match validCount % 4 with
      | 3 => [UInt8.ofNat (convered / 1024), UInt8.ofNat (convered / 4)]
      | 2 => [UInt8.ofNat (convered / 16)]
      | _ => []
    (poke data resultCount (tail ++ [0]), resultCount + tail.length)

example : cstr (decodeB64 (bytes "YS50eHQ=")).1 = bytes "a.txt" := by decide

/-- `Hex2Int`, -1 as `none`. -/
def hex2Int (c : UInt8) : Option ℕ :=
  if 48 ≤ c && c ≤ 57 then some (c.toNat - 48)
  else if 65 ≤ c && c ≤ 70 then some (c.toNat - 55)
  else if 97 ≤ c && c ≤ 102 then some (c.toNat - 87)
  else none

/-- The loop of `URLDecode` at position `i` of a text of `len` bytes. The text shrinks in place and
its end is not terminated again. -/
def urlDecodeLoop : ℕ → Bytes → (i len : ℕ) → Bytes × ℕ
  | 0, url, i, _ => (url, i)
  | n + 1, url, i, len =>
    if i < len ∧ peek url i ≠ 0 then
      if peek url i = 37 ∧ i + 2 < len then
        match hex2Int (peek url (i + 1)), hex2Int (peek url (i + 2)) with
        | some a, some b =>
          let url := poke url i [UInt8.ofNat (16 * a + b)]
          urlDecodeLoop n (poke url (i + 1) (slice url (i + 3) (len - i - 3))) (i + 1) (len - 2)
        | _, _ => urlDecodeLoop n url (i + 1) len
      else urlDecodeLoop n url (i + 1) len
    else (url, i)

/-- `URLDecode`: the memory after decoding in place, and the decoded length. -/
def urlDecode (url : Bytes) : Bytes × ℕ := urlDecodeLoop (strlen url) url 0 (strlen url)

example : urlDecode (bytes "%2e%2e/a") = (bytes "../a/a/a", 4) := by decide

/-! ## Content types -/

def contentTypes : List (Bytes × Bytes) := [
  (bytes "html", bytes "text/html"), (bytes "htm", bytes "text/html"),
  (bytes "shtml", bytes "text/html"), (bytes "shtm", bytes "text/html"),
  (bytes "ssi", bytes "text/html"), (bytes "css", bytes "text/css"),
  (bytes "json", bytes "application/json"), (bytes "js", bytes "application/javascript"),
  (bytes "gif", bytes "image/gif"), (bytes "png", bytes "image/png"),
  (bytes "jpg", bytes "image/jpeg"), (bytes "bmp", bytes "image/bmp"),
  (bytes "ico", bytes "image/x-icon"), (bytes "mp4", bytes "video/mp4"),
  (bytes "flv", bytes "video/x-flv"), (bytes "3gp", bytes "video/3gpp"),
  (bytes "mov", bytes "video/quicktime"), (bytes "avi", bytes "video/x-msvideo"),
  (bytes "wmv", bytes "video/x-ms-wmv"), (bytes "class", bytes "application/octet-stream"),
  (bytes "cls", bytes "application/octet-stream"),
  (bytes "swf", bytes "application/x-shockwave-flash"),
  (bytes "ram", bytes "application/javascript"), (bytes "pdf", bytes "application/pdf"),
  (bytes "xml", bytes "text/xml"), (bytes "xsl", bytes "text/xml")]

/-- `GetContentType` -/
def getContentType (extension : Bytes) : Bytes :=
  match contentTypes.find? fun t => t.1.length == strlen extension &&
      strnicmp extension t.1 t.1.length == 0 with
  | some t => t.2
  | none => bytes "text/plain"

end StraightHttpd
