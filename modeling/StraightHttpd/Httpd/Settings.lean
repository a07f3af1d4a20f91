import StraightHttpd.Httpd.Cgi.Ssi
import StraightHttpd.Lib.Runs
import StraightHttpd.NumberText

/-! # Settings as text (`port_device.c`)

Each editable setting is shown by a getter and stored by a setter. What the getter shows is what the
setter stores, as long as no number of minutes was asked for that is too large in milliseconds.
-/

set_option autoImplicit false

namespace StraightHttpd
open CMemory Device DeviceConfig

/-! ## Addresses -/

theorem afterDot_append {t : Bytes} (h0 : (0 : UInt8) ∉ t) (h46 : (46 : UInt8) ∉ t) (u : Bytes) :
    afterDot (t ++ 46 :: u) = some u := by
  have hfind : strchr (t ++ 46 :: u) 46 = some t.length := by
    rw [strchr, cstr_append h0, cstr_cons (by decide), find_append h46]
  rw [afterDot, hfind, Option.map_some, ← List.drop_drop, List.drop_left]
  rfl

theorem natText_no_dot (n : ℕ) : (0 : UInt8) ∉ natText n ∧ (46 : UInt8) ∉ natText n :=
  ⟨not_mem_digits (natText_isDigit n) rfl, not_mem_digits (natText_isDigit n) rfl⟩

theorem afterDot_natText (n : ℕ) (u : Bytes) : afterDot (natText n ++ 46 :: u) = some u :=
  afterDot_append (natText_no_dot n).1 (natText_no_dot n).2 u

/-- The parts of an address are read one by one. -/
theorem getIpAddress_parts {a b c d : ℕ} (ha : a < 256) (hb : b < 256) (hc : c < 256) (hd : d < 256) :
    getIpAddress (natText a ++ 46 :: (natText b ++ 46 :: (natText c ++ 46 :: natText d))) =
      a * 2 ^ 24 + b * 2 ^ 16 + c * 2 ^ 8 + d := by
  have hbyte (n : ℕ) (hn : n < 256) : wrap32 (n : ℤ) = n := wrap32_of_range (by omega)
  have hd' : ston (natText d) = d := by rw [ston_natText, hbyte d hd]
  have hpart (n : ℕ) (hn : n < 256) (u : Bytes) : ston (natText n ++ 46 :: u) = n := by
    rw [ston_natText_append n rfl, hbyte n hn]
  unfold getIpAddress
  simp only [afterDot_natText, hpart a ha, hpart b hb, hpart c hc]
  simp only [hd', u32]
  omega

theorem dotted_parts (ip : ℕ) : dotted ip = natText (ip / 2 ^ 24 % 256) ++ 46 :: (natText (ip / 2 ^ 16 % 256) ++
    46 :: (natText (ip / 2 ^ 8 % 256) ++ 46 :: natText (ip % 256))) := by
  unfold dotted
  simp only [List.append_assoc, List.cons_append, List.nil_append]

/-- Every 32-bit address survives. -/
theorem getIpAddress_dotted {ip : ℕ} (h : ip < 2 ^ 32) : getIpAddress (dotted ip) = ip := by
  have hlt (n : ℕ) : n % 256 < 256 := Nat.mod_lt n (by decide)
  rw [dotted_parts, getIpAddress_parts (hlt _) (hlt _) (hlt _) (hlt _)]
  omega

theorem u32_lt (n : ℤ) : u32 n < 2 ^ 32 := by
  unfold u32
  omega

theorem getIpAddress_lt (addr : Bytes) : getIpAddress addr < 2 ^ 32 := by
  unfold getIpAddress
  simp only
  cases afterDot addr with
  | none => show (ston addr % 256).toNat < 2 ^ 32; omega
  | some p =>
    simp only
    cases afterDot p with
    | none => exact u32_lt _
    | some q =>
      simp only
      cases afterDot q with
      | none => exact u32_lt _
      | some r => exact u32_lt _

/-! ## The editable settings -/

/-- The settings of the form that have a getter and a setter. -/
inductive Editable
  | myIP
  | gateway
  | subnet
  | sessionTimeout
  | location
  | color
  | date
  | font
  deriving DecidableEq, Repr

/-- How a setting is written as text. -/
def Editable.getter : Editable → Device → Bytes
  | .myIP => fillIP
  | .gateway => fillGateway
  | .subnet => fillSubnet
  | .sessionTimeout => fillSessionTimeout
  | .location => fun d => d.work.szLocation
  | .color => fun d => d.work.szColor
  | .date => fun d => d.work.szDate
  | .font => fun d => d.work.szFont

/-- How a text is stored. -/
def Editable.setter : Editable → DeviceConfig → Bytes → DeviceConfig
  | .myIP => setMyIP
  | .gateway => setGateway
  | .subnet => setSubnet
  | .sessionTimeout => setSessionTimeout
  | .location => setLocation
  | .color => setColor
  | .date => setDate
  | .font => setFont

/-- Most minutes that fit the 32 bits of a timeout in milliseconds. -/
def maxMinutes : ℕ := 35791

/-- A text of 15 bytes at most without NULs. -/
def Text16 (t : Bytes) : Prop := (0 : UInt8) ∉ t ∧ t.length ≤ 15

/-- A configuration whose settings can be shown and stored again. -/
structure Shown (c : DeviceConfig) : Prop where
  ip : c.dwIP < 2 ^ 32
  gateway : c.dwGateway < 2 ^ 32
  subnet : c.dwSubnet < 2 ^ 32
  timeout : ∃ minutes : ℤ, c.nSessionTimeout = 60000 * minutes ∧ -maxMinutes ≤ minutes ∧ minutes ≤ maxMinutes
  location : Text16 c.szLocation
  color : Text16 c.szColor
  date : Text16 c.szDate
  font : Text16 c.szFont

theorem text16_text (value : Bytes) : Text16 (text16 value) := by
  refine ⟨fun h => ?_, List.length_take_le _ _⟩
  exact absurd (List.mem_takeWhile_imp (List.mem_of_mem_take h)) (by decide)

/-- A text that fits is stored as it is. -/
theorem text16_same {t : Bytes} (h : Text16 t) : text16 t = t := by
  rw [text16, cstr_of_no_nul h.1, List.take_of_length_le h.2]

/-- A timeout in whole minutes is shown as its minutes. -/
theorem setSessionTimeout_shown {c : DeviceConfig} {d : Device} {minutes : ℤ}
    (hm : d.work.nSessionTimeout = 60000 * minutes) (hrange : -maxMinutes ≤ minutes ∧ minutes ≤ maxMinutes) :
    (setSessionTimeout c (fillSessionTimeout d)).nSessionTimeout = d.work.nSessionTimeout := by
  have hmax : (maxMinutes : ℤ) = 35791 := rfl
  have hdiv : d.work.nSessionTimeout.tdiv (60 * 1000) = minutes := by
    rw [hm]
    exact Int.mul_tdiv_cancel_left minutes (by decide)
  have hread : ston (fillSessionTimeout d) = minutes := by
    rw [fillSessionTimeout, hdiv, ston_natText]
    have hu : ((u32 minutes : ℕ) : ℤ) = minutes % 2 ^ 32 := by
      unfold u32
      omega
    rw [hu, wrap32_congr (n := minutes) (by omega), wrap32_of_range (by omega)]
  show wrap32 (60 * 1000 * ston (fillSessionTimeout d)) = _
  rw [hread, hm, wrap32_of_range (by omega)]
  rfl

/-- What a getter shows, its setter stores. -/
theorem Shown.survives {d : Device} (h : Shown d.work) (s : Editable) : s.setter d.work (s.getter d) = d.work := by
  cases s with
  | myIP => exact congrArg (fun a => { d.work with dwIP := a }) (getIpAddress_dotted h.ip)
  | gateway => exact congrArg (fun a => { d.work with dwGateway := a }) (getIpAddress_dotted h.gateway)
  | subnet => exact congrArg (fun a => { d.work with dwSubnet := a }) (getIpAddress_dotted h.subnet)
  | sessionTimeout =>
    obtain ⟨minutes, hm, hrange⟩ := h.timeout
    exact congrArg (fun n => { d.work with nSessionTimeout := n }) (setSessionTimeout_shown (c := d.work) hm hrange)
  | location => exact congrArg (fun t => { d.work with szLocation := t }) (text16_same h.location)
  | color => exact congrArg (fun t => { d.work with szColor := t }) (text16_same h.color)
  | date => exact congrArg (fun t => { d.work with szDate := t }) (text16_same h.date)
  | font => exact congrArg (fun t => { d.work with szFont := t }) (text16_same h.font)

/-! ## Runs -/

/-- What changes the configuration: the form, and the network. -/
inductive SettingsEvent
  | load
  | set (name value : Bytes)
  | apply
  | setMyIP (addr : ℕ)
  | setGateway (addr : ℕ)
  | setSubnet (addr : ℕ)

namespace Settings

/-- One change of the configuration. -/
def change (d : Device) : SettingsEvent → Device
  | .load => d.loadConfig4Edit
  | .set name value => tagSetter d name value
  | .apply => d.appyConfig
  | .setMyIP addr => d.setMyIPLong addr
  | .setGateway addr => d.setGatewayLong addr
  | .setSubnet addr => d.setSubnetLong addr

/-- The addresses of the network are `unsigned long`. -/
def Long : SettingsEvent → Prop
  | .setMyIP addr => addr < 2 ^ 32
  | .setGateway addr => addr < 2 ^ 32
  | .setSubnet addr => addr < 2 ^ 32
  | _ => True

def runs : RunSystem Device SettingsEvent where
  init d := d = initDevInfo
  step d e d' := Long e ∧ d' = change d e

/-- The number of minutes that a submission asks for fits a timeout. -/
def TimeoutFits (_ : Device) : SettingsEvent → Prop
  | .set name value => cstr name = bytes "VAR_SESSION_TIMEOUT" →
    -maxMinutes ≤ ston value ∧ ston value ≤ maxMinutes
  | _ => True

theorem shown_init : Shown initConfig where
  ip := by decide
  gateway := by decide
  subnet := by decide
  timeout := ⟨3, by decide, by decide, by decide⟩
  location := ⟨List.not_mem_nil, Nat.zero_le _⟩
  color := ⟨List.not_mem_nil, Nat.zero_le _⟩
  date := ⟨List.not_mem_nil, Nat.zero_le _⟩
  font := ⟨List.not_mem_nil, Nat.zero_le _⟩

theorem shown_timeout {c : DeviceConfig} (h : Shown c) {value : Bytes}
    (hv : -maxMinutes ≤ ston value ∧ ston value ≤ maxMinutes) : Shown (setSessionTimeout c value) := by
  have hmax : (maxMinutes : ℤ) = 35791 := rfl
  refine { h with timeout := ⟨ston value, ?_, hv⟩ }
  show wrap32 (60 * 1000 * ston value) = _
  rw [wrap32_of_range (by omega)]
  rfl

/-- Every setter keeps the configuration one that can be shown. -/
theorem shown_setters {c : DeviceConfig} (h : Shown c) (value : Bytes) : ∀ s ∈ setters,
    (s.1 = bytes "VAR_SESSION_TIMEOUT" → -maxMinutes ≤ ston value ∧ ston value ≤ maxMinutes) →
    Shown (s.2 c value) := by
  unfold setters
  simp only [List.forall_mem_cons, List.not_mem_nil, false_implies, implies_true, and_true]
  refine ⟨fun _ => ?_, fun hv => ?_, fun _ => ?_, fun _ => ?_, fun _ => ?_, fun _ => ?_, fun _ => ?_, fun _ => ?_,
    fun _ => ?_, fun _ => ?_⟩
  · exact { h with }
  · exact shown_timeout h (hv trivial)
  · exact { h with ip := getIpAddress_lt value }
  · exact { h with gateway := getIpAddress_lt value }
  · exact { h with subnet := getIpAddress_lt value }
  · exact { h with location := text16_text value }
  · exact { h with color := text16_text value }
  · exact { h with date := text16_text value }
  · exact { h with font := text16_text value }
  · exact { h with }

theorem shown_setTag {c : DeviceConfig} (h : Shown c) {name value : Bytes}
    (hv : cstr name = bytes "VAR_SESSION_TIMEOUT" → -maxMinutes ≤ ston value ∧ ston value ≤ maxMinutes) :
    Shown (setTag c name value) := by
  unfold setTag
  cases hs : setters.find? (·.1 == cstr name) with
  | none => exact h
  | some s =>
    have hname := List.find?_some hs
    exact shown_setters h value s (List.mem_of_find?_eq_some hs) fun ht => hv ((beq_iff_eq.mp hname).symm.trans ht)

/-- Both records stay such that they can be shown. -/
theorem shown_step {d d' : Device} {e : SettingsEvent} (h : Shown d.work ∧ Shown d.temp) (hfits : TimeoutFits d e)
    (hs : runs.step d e d') : Shown d'.work ∧ Shown d'.temp := by
  obtain ⟨hlong, rfl⟩ := hs
  obtain ⟨hwork, htemp⟩ := h
  cases e with
  | load => exact ⟨hwork, hwork⟩
  | set name value => exact ⟨hwork, shown_setTag htemp hfits⟩
  | apply => exact ⟨htemp, htemp⟩
  | setMyIP addr => exact ⟨{ hwork with ip := hlong }, htemp⟩
  | setGateway addr => exact ⟨{ hwork with gateway := hlong }, htemp⟩
  | setSubnet addr => exact ⟨{ hwork with subnet := hlong }, htemp⟩

theorem shown_reach {d : Device} (hr : (runs.restrict TimeoutFits).Reach d) : Shown d.work := by
  have h : Shown d.work ∧ Shown d.temp := by
    refine hr.invariant (P := fun d => Shown d.work ∧ Shown d.temp) (fun d hd => ?_) fun d e d' hd hs => ?_
    · obtain rfl : d = initDevInfo := hd
      exact ⟨shown_init, shown_init⟩
    · obtain ⟨hfits, hstep⟩ := hs
      exact shown_step hd hfits hstep
  exact h.1

/-! ## The session timeout -/

/-- The timeout that is stored for a number of minutes: that many, or as many as there may be. -/
def Stored (minutes : ℕ) (timeout : ℤ) : Prop :=
  timeout = 60000 * minutes ∨ maxMinutes < minutes ∧ (timeout = 60000 * maxMinutes ∨ timeout = 2147483647)

/-- Multiples of 60000 that agree in their last 32 bits come from numbers that agree in their last 27. -/
theorem minutes_mod {minutes : ℕ} {n : ℤ} (hmod : n % 4294967296 = 60000 * minutes % 4294967296) :
    (n = 60000 * 35791 → minutes % 134217728 = 35791) ∧ n ≠ 2147483647 := by
  constructor
  · intro h
    omega
  · intro h
    omega

/-- Exactly the numbers of minutes that fit are stored, and those that fit by their last bits. -/
theorem stored_iff (minutes : ℕ) : Stored minutes (wrap32 (60000 * minutes)) ↔
    minutes ≤ maxMinutes ∨ minutes % 2 ^ 27 = maxMinutes := by
  have hrange := wrap32_range (60000 * minutes)
  have hmod : wrap32 (60000 * minutes) % 4294967296 = 60000 * minutes % 4294967296 := wrap32_emod (60000 * minutes)
  have hmax : maxMinutes = 35791 := rfl
  have h27 : 2 ^ 27 = 134217728 := by norm_num
  unfold Stored
  rw [hmax, h27]
  push_cast
  constructor
  · rintro (h | ⟨-, h | h⟩)
    · exact .inl (by omega)
    · exact .inr ((minutes_mod hmod).1 h)
    · exact absurd h (minutes_mod hmod).2
  · intro h
    by_cases hle : minutes ≤ 35791
    · exact .inl (wrap32_of_range (by omega))
    · have h27 := h.resolve_left hle
      have hlast : 60000 * (minutes : ℤ) % 4294967296 = 60000 * 35791 % 4294967296 := by omega
      have hsame : wrap32 (60000 * minutes) = wrap32 (60000 * 35791) := wrap32_congr hlast
      exact .inr ⟨by omega, .inl (hsame.trans (wrap32_of_range (by decide)))⟩

theorem setSessionTimeout_digits (c : DeviceConfig) {t : Bytes} (ht : ∀ b ∈ t, isDigit b = true) :
    (setSessionTimeout c t).nSessionTimeout = wrap32 (60000 * (digits 0 t : ℕ)) := by
  have hread := ston_digits ht
  have hmod := wrap32_emod (digits 0 t : ℕ)
  show wrap32 (60 * 1000 * ston t) = _
  rw [hread]
  refine wrap32_congr ?_
  omega

/-- Settings survive rendering and saving while no submission asks for more minutes than fit, and a number of
minutes is stored as asked exactly when it fits. -/
theorem settings_survive {d : Device} (hr : (runs.restrict TimeoutFits).Reach d) :
    (∀ s : Editable, s.setter d.work (s.getter d) = d.work) ∧
      (∀ ip, ip < 2 ^ 32 → getIpAddress (dotted ip) = ip) ∧
      ∀ (c : DeviceConfig) (t : Bytes), (∀ b ∈ t, isDigit b = true) →
        (Stored (digits 0 t) (setSessionTimeout c t).nSessionTimeout ↔
          digits 0 t ≤ maxMinutes ∨ digits 0 t % 2 ^ 27 = maxMinutes) := by
  refine ⟨fun s => (shown_reach hr).survives s, fun ip hip => getIpAddress_dotted hip, fun c t ht => ?_⟩
  rw [setSessionTimeout_digits c ht]
  exact stored_iff _

/-- The form is saved with a timeout. -/
def saved (value : Bytes) : Device := (tagSetter initDevInfo (bytes "VAR_SESSION_TIMEOUT") value).appyConfig

theorem settings_survive_saved :
    setSessionTimeout (saved (bytes "30")).work (saved (bytes "30")).fillSessionTimeout =
      (saved (bytes "30")).work := by
  have hset : (runs.restrict TimeoutFits).Reach
      (tagSetter initDevInfo (bytes "VAR_SESSION_TIMEOUT") (bytes "30")) :=
    .step (.set (bytes "VAR_SESSION_TIMEOUT") (bytes "30")) (.init rfl) ⟨fun _ => by decide, trivial, rfl⟩
  exact (settings_survive (.step .apply hset ⟨trivial, trivial, rfl⟩)).1 .sessionTimeout

/-- 35792 minutes are one too many. -/
theorem settings_survive_fails :
    ¬ ∀ d, runs.Reach d → (∀ s : Editable, s.setter d.work (s.getter d) = d.work) ∧
      ∀ (c : DeviceConfig) (t : Bytes), (∀ b ∈ t, isDigit b = true) →
        Stored (digits 0 t) (setSessionTimeout c t).nSessionTimeout := by
  intro h
  have hset : runs.Reach (tagSetter initDevInfo (bytes "VAR_SESSION_TIMEOUT") (bytes "35792")) :=
    .step (.set (bytes "VAR_SESSION_TIMEOUT") (bytes "35792")) (.init rfl) ⟨trivial, rfl⟩
  have hsame := (h _ (.step .apply hset ⟨trivial, rfl⟩)).1 .sessionTimeout
  exact absurd (congrArg DeviceConfig.nSessionTimeout hsame) (by decide +kernel)

end Settings

end StraightHttpd
