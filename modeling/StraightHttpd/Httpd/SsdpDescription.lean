import StraightHttpd.Httpd.Cgi.Ssdp
import StraightHttpd.NumberText

/-! # The UPnP description in blocks (`cgi/cgi_ssdp.c`)

`SSDP_Sending` puts out one line for each stage and stops in front of a line for which there may be no
room. Wherever the calls stop, the blocks put together are the same document.
-/

set_option autoImplicit false

namespace StraightHttpd
open CMemory

/-! ## The description of any device -/

/-- What the device says of itself. -/
structure DeviceStrings where
  vendor : Bytes
  vendorURL : Bytes
  model : Bytes
  modelURL : Bytes
  name : Bytes
  version : Bytes
  sn : Bytes
  uuid : Bytes

/-- The strings of `port_device.c`. -/
def deviceStrings : DeviceStrings where
  vendor := getVendor
  vendorURL := getVendorURL
  model := getModel
  modelURL := getModelURL
  name := getDeviceName
  version := getDeviceVersion
  sn := getDeviceSN
  uuid := getDeviceUUID

namespace DeviceStrings

variable (x : DeviceStrings)

/-- The elements that are written, one for each stage. -/
def lines (szIP : Bytes) : List Bytes :=
  let element (name text : Bytes) : Bytes :=
    [60] ++ name ++ [62] ++ text ++ [60, 47] ++ name ++ [62] ++ crlf
  [ bytes "<?xml version=\"1.0\"?>\r\n",
    bytes "<root xmlns=\"urn:schemas-upnp-org:device-1-0\">\r\n",
    bytes "<specVersion><major>1</major><minor>0</minor></specVersion>\r\n",
    element (bytes "URLBase") (bytes "https://" ++ szIP),
    bytes "<device>\r\n",
    element (bytes "deviceType") (bytes "urn:schemas-upnp-org:device:Basic:1"),
    element (bytes "friendlyName") x.name,
    element (bytes "presentationURL") (bytes "https://" ++ szIP),
    element (bytes "manufacturer") x.vendor,
    element (bytes "manufacturerURL") x.vendorURL,
    element (bytes "modelDescription") x.model,
    element (bytes "modelName") x.model,
    element (bytes "modelNumber") (x.name ++ bytes " (" ++ x.version ++ bytes ")"),
    element (bytes "modelURL") x.modelURL,
    element (bytes "serialNumber") x.sn,
    element (bytes "UDN") (bytes "uuid:" ++ x.uuid),
    bytes "</device>\r\n</root>\r\n" ]

/-- The steps from the present stage on, each with `off = strlen(buffer)` behind it. -/
def steps (maxSize : ℤ) (w : Work) (out : Bytes) : List Bytes → Work × Bytes
  | [] => ({ w with dwOperStage := stageEnd }, out)
  | line :: rest =>
    if (out.length : ℤ) > maxSize - 128 then (w, out)
    else steps maxSize { w with dwOperStage := nextStage w.dwOperStage } (out ++ cstr line) rest

/-- `SSDP_Sending` of a device with these strings. -/
def sending (c : Core) (w : Work) (maxSize : ℤ) : Work × Bytes × ℤ :=
  if c.requestMethod = some .get then
    if w.dwOperStage = stageEnd then (w, [], -1)
    else match steps maxSize w [] ((x.lines (Device.dotted w.world.device.getMyIP)).drop w.dwOperStage) with
      | (w, out) => (w, out, out.length)
  else (w, [], 0)

/-- Every element is shorter than the room that is kept, and has no NUL. -/
def Fit (szIP : Bytes) : Prop := ∀ line ∈ x.lines szIP, line.length < 128 ∧ (0 : UInt8) ∉ line

end DeviceStrings

theorem ssdpLines_eq (d : Device) : ssdpLines d = deviceStrings.lines (Device.dotted d.getMyIP) := rfl

theorem steps_eq {lines : List Bytes} (h : ∀ line ∈ lines, (0 : UInt8) ∉ line) (maxSize : ℤ) (w : Work) (out : Bytes) :
    ssdpLoop maxSize w out lines = DeviceStrings.steps maxSize w out lines := by
  induction lines generalizing w out with
  | nil => rfl
  | cons line lines ih =>
    have hline := h line List.mem_cons_self
    have ih := ih fun l hl => h l (List.mem_cons_of_mem _ hl)
    rw [ssdpLoop, DeviceStrings.steps, ih, cstr_of_no_nul hline]

/-- The description of this device is the one with the strings of `port_device.c`. -/
theorem ssdpSending_eq (c : Core) {w : Work} (h : deviceStrings.Fit (Device.dotted w.world.device.getMyIP))
    (maxSize : ℤ) : ssdpSending c w maxSize = deviceStrings.sending c w maxSize := by
  have hsteps := @steps_eq ((ssdpLines w.world.device).drop w.dwOperStage)
    (fun line hl => (h line (List.mem_of_mem_drop hl)).2) maxSize w []
  unfold ssdpSending DeviceStrings.sending
  rw [hsteps, ssdpLines_eq]

/-! ## One call -/

/-- What one call makes of the rest of the description: it puts out the first `k` elements. -/
theorem steps_taken {lines : List Bytes} (h : ∀ line ∈ lines, line.length < 128 ∧ (0 : UInt8) ∉ line) (maxSize : ℤ)
    (w : Work) (out : Bytes) (hstage : w.dwOperStage + lines.length < 2 ^ 32) : ∃ k ≤ lines.length,
    (DeviceStrings.steps maxSize w out lines).2 = out ++ (lines.take k).flatten ∧
      (0 < k → ((DeviceStrings.steps maxSize w out lines).2.length : ℤ) ≤ maxSize) ∧
      (k = lines.length ∧ (DeviceStrings.steps maxSize w out lines).1 = { w with dwOperStage := stageEnd } ∨
        k < lines.length ∧
          (DeviceStrings.steps maxSize w out lines).1 = { w with dwOperStage := w.dwOperStage + k } ∧
          ((DeviceStrings.steps maxSize w out lines).2.length : ℤ) > maxSize - 128) := by
  induction lines generalizing w out with
  | nil =>
    refine ⟨0, le_refl _, ?_, fun h0 => absurd h0 (lt_irrefl 0), .inl ⟨rfl, rfl⟩⟩
    rw [List.take_nil, List.flatten_nil, List.append_nil]
    rfl
  | cons line lines ih =>
    obtain ⟨hlength, h0⟩ := h line List.mem_cons_self
    rw [List.length_cons] at hstage
    by_cases hroom : (out.length : ℤ) > maxSize - 128
    · have hstop : DeviceStrings.steps maxSize w out (line :: lines) = (w, out) := by
        rw [DeviceStrings.steps, if_pos hroom]
      rw [hstop]
      refine ⟨0, Nat.zero_le _, ?_, fun h0 => absurd h0 (lt_irrefl 0), .inr ⟨Nat.succ_pos _, rfl, hroom⟩⟩
      rw [List.take_zero, List.flatten_nil, List.append_nil]
    · have hnext : nextStage w.dwOperStage = w.dwOperStage + 1 := by
        unfold nextStage
        omega
      have hgo : DeviceStrings.steps maxSize w out (line :: lines) = DeviceStrings.steps maxSize
          { w with dwOperStage := w.dwOperStage + 1 } (out ++ line) lines := by
        rw [DeviceStrings.steps, if_neg hroom, hnext, cstr_of_no_nul h0]
      obtain ⟨k, hk, hout, hfits, hend⟩ := ih (fun l hl => h l (List.mem_cons_of_mem _ hl))
        { w with dwOperStage := w.dwOperStage + 1 } (out ++ line) (by simp only; omega)
      rw [hgo]
      refine ⟨k + 1, Nat.succ_le_succ hk, ?_, fun _ => ?_, ?_⟩
      · rw [hout, List.take_succ_cons, List.flatten_cons, List.append_assoc]
      · cases k with
        | zero =>
          rw [hout, List.take_zero, List.flatten_nil, List.append_nil, List.length_append]
          omega
        | succ k => exact hfits (Nat.succ_pos k)
      · rcases hend with ⟨hall, hstop⟩ | ⟨hlt, hstop, hmore⟩
        · exact .inl ⟨congrArg (· + 1) hall, hstop⟩
        · refine .inr ⟨Nat.succ_lt_succ hlt, ?_, hmore⟩
          rw [hstop]
          show { w with dwOperStage := w.dwOperStage + 1 + k } = { w with dwOperStage := w.dwOperStage + (k + 1) }
          rw [Nat.add_assoc, Nat.add_comm 1 k]

namespace DeviceStrings

variable {x : DeviceStrings} {c : Core}

/-- The address that the elements show. -/
def address (w : Work) : Bytes := Device.dotted w.world.device.getMyIP

/-- The whole description. -/
def document (x : DeviceStrings) (w : Work) : Bytes := (x.lines (address w)).flatten

theorem lines_length (x : DeviceStrings) (szIP : Bytes) : (x.lines szIP).length = 17 := rfl

/-- A call before the end goes on from the present stage. -/
theorem sending_steps (hc : c.requestMethod = some .get) {w : Work} (hstage : w.dwOperStage < 17) (maxSize : ℤ) :
    x.sending c w maxSize = ((steps maxSize w [] ((x.lines (address w)).drop w.dwOperStage)).1,
      (steps maxSize w [] ((x.lines (address w)).drop w.dwOperStage)).2,
      ((steps maxSize w [] ((x.lines (address w)).drop w.dwOperStage)).2.length : ℤ)) := by
  have hgoing : w.dwOperStage ≠ stageEnd := by
    unfold stageEnd
    omega
  unfold sending
  rw [if_pos hc, if_neg hgoing]
  rfl

/-- What a call before the end comes to: some elements from the present stage on. -/
structure Sent (x : DeviceStrings) (w : Work) (maxSize : ℤ) (r : Work × Bytes × ℤ) (k : ℕ) : Prop where
  block : r.2.1 = (((x.lines (address w)).drop w.dwOperStage).take k).flatten
  count : r.2.2 = r.2.1.length
  fits : (r.2.1.length : ℤ) ≤ max maxSize 0
  moved : w.dwOperStage + k = 17 ∧ r.1 = { w with dwOperStage := stageEnd } ∨
    w.dwOperStage + k < 17 ∧ r.1 = { w with dwOperStage := w.dwOperStage + k } ∧ (r.2.1.length : ℤ) > maxSize - 128

theorem sending_sent (hc : c.requestMethod = some .get) {w : Work} (hstage : w.dwOperStage < 17)
    (hfit : x.Fit (address w)) (maxSize : ℤ) : ∃ k, Sent x w maxSize (x.sending c w maxSize) k := by
  have hlength : ((x.lines (address w)).drop w.dwOperStage).length = 17 - w.dwOperStage := by
    rw [List.length_drop, lines_length]
  obtain ⟨k, hk, hout, hfits, hend⟩ := @steps_taken ((x.lines (address w)).drop w.dwOperStage)
    (fun line hl => hfit line (List.mem_of_mem_drop hl)) maxSize w [] (by omega)
  rw [List.nil_append] at hout
  rw [sending_steps hc hstage]
  refine ⟨k, hout, rfl, ?_, ?_⟩
  · cases k with
    | zero =>
      show ((steps maxSize w [] ((x.lines (address w)).drop w.dwOperStage)).2.length : ℤ) ≤ _
      rw [hout]
      exact le_max_right _ _
    | succ k => exact (hfits (Nat.succ_pos k)).trans (le_max_left _ _)
  · rcases hend with ⟨hall, hstop⟩ | ⟨hlt, hstop, hmore⟩
    · exact .inl ⟨by omega, hstop⟩
    · exact .inr ⟨by omega, hstop, hmore⟩

/-- With room for an element a call moves on. -/
theorem Sent.advances {w : Work} {maxSize : ℤ} {r : Work × Bytes × ℤ} {k : ℕ} (h : Sent x w maxSize r k)
    (hstage : w.dwOperStage < 17) (hroom : 128 ≤ maxSize) : w.dwOperStage < r.1.dwOperStage := by
  rcases h.moved with ⟨-, hr⟩ | ⟨-, hr, hmore⟩
  · rw [hr]
    show w.dwOperStage < stageEnd
    unfold stageEnd
    omega
  · have hk : k ≠ 0 := by
      intro h0
      have hblock := h.block
      rw [h0, List.take_zero, List.flatten_nil] at hblock
      rw [hblock, List.length_nil] at hmore
      omega
    rw [hr]
    show w.dwOperStage < w.dwOperStage + k
    omega

/-- Without room for an element a call does nothing. -/
theorem sending_waits (hc : c.requestMethod = some .get) {w : Work} (hstage : w.dwOperStage < 17) {maxSize : ℤ}
    (hroom : maxSize < 128) : x.sending c w maxSize = (w, [], 0) := by
  have hne : (x.lines (address w)).drop w.dwOperStage ≠ [] := by
    intro hnil
    have hle := List.drop_eq_nil_iff.mp hnil
    rw [lines_length] at hle
    omega
  obtain ⟨line, rest, hrest⟩ := List.exists_cons_of_ne_nil hne
  have hsmall : (([] : Bytes).length : ℤ) > maxSize - 128 := by
    rw [List.length_nil]
    omega
  rw [sending_steps hc hstage, hrest, steps, if_pos hsmall]
  rfl

/-! ## All calls -/

/-- The blocks of successive calls, with the room that each is given. -/
def blocks (x : DeviceStrings) (c : Core) (w : Work) (sizes : ℕ → ℤ) : ℕ → Work × Bytes
  | 0 => (w, [])
  | n + 1 =>
    let (w', out) := blocks x c w sizes n
    if w'.dwOperStage = stageEnd then (w', out)
    else
      let (w'', block, _) := x.sending c w' (sizes n)
      (w'', out ++ block)

/-- After some calls: the elements up to the present stage are put out. -/
inductive Described (x : DeviceStrings) (w : Work) : Work × Bytes → Prop
  | going {s : ℕ} : s < 17 → Described x w ({ w with dwOperStage := s }, ((x.lines (address w)).take s).flatten)
  | ended : Described x w ({ w with dwOperStage := stageEnd }, x.document w)

theorem blocks_described (hc : c.requestMethod = some .get) {w : Work} (hstage : w.dwOperStage = 0)
    (hfit : x.Fit (address w)) (sizes : ℕ → ℤ) (n : ℕ) : Described x w (blocks x c w sizes n) := by
  induction n with
  | zero =>
    have hw : ({ w with dwOperStage := 0 } : Work) = w := by
      cases w
      simp only at hstage
      rw [hstage]
    have hstart := @Described.going x w 0 (by decide)
    rw [hw] at hstart
    exact hstart
  | succ n ih =>
    have hstep : blocks x c w sizes (n + 1) =
        if (blocks x c w sizes n).1.dwOperStage = stageEnd then blocks x c w sizes n
        else ((x.sending c (blocks x c w sizes n).1 (sizes n)).1,
          (blocks x c w sizes n).2 ++ (x.sending c (blocks x c w sizes n).1 (sizes n)).2.1) := rfl
    rw [hstep]
    generalize blocks x c w sizes n = r at ih
    cases ih with
    | ended => exact .ended
    | @going s hs =>
      have hgoing : s ≠ stageEnd := by
        unfold stageEnd
        omega
      obtain ⟨k, hsent⟩ := @sending_sent x c hc { w with dwOperStage := s } hs hfit (sizes n)
      have hall : ((x.lines (address w)).take s).flatten ++ (((x.lines (address w)).drop s).take k).flatten =
          ((x.lines (address w)).take (s + k)).flatten := by
        rw [List.take_add, List.flatten_append]
      rw [if_neg hgoing, hsent.block]
      show Described x w (_, ((x.lines (address w)).take s).flatten ++
        (((x.lines (address w)).drop s).take k).flatten)
      rw [hall]
      rcases hsent.moved with ⟨hend, hr⟩ | ⟨hlt, hr, -⟩
      · have htake : (x.lines (address w)).take (s + k) = x.lines (address w) :=
          List.take_of_length_le (le_of_eq ((lines_length x _).trans hend.symm))
        rw [hr, htake]
        exact .ended
      · rw [hr]
        exact .going hlt

/-- What is promised while the description is going on: no element was repeated or skipped, and the next call,
with `maxSize`, puts out no more than it may, moves on when it has room for an element, and waits otherwise. -/
structure Going (x : DeviceStrings) (c : Core) (w : Work) (maxSize : ℤ) (r : Work × Bytes) : Prop where
  elements : r.2 = ((x.lines (address w)).take r.1.dwOperStage).flatten
  count : (x.sending c r.1 maxSize).2.2 = (x.sending c r.1 maxSize).2.1.length
  fits : (x.sending c r.1 maxSize).2.2 ≤ max maxSize 0
  advances : 128 ≤ maxSize → r.1.dwOperStage < (x.sending c r.1 maxSize).1.dwOperStage
  waits : maxSize < 128 → x.sending c r.1 maxSize = (r.1, [], 0)

/-- The description does not depend on the sizes of the blocks. -/
theorem ssdp_description (hc : c.requestMethod = some .get) {w : Work} (hstage : w.dwOperStage = 0)
    (hfit : x.Fit (address w)) (sizes : ℕ → ℤ) :
    (∀ m : ℤ, (x.document w).length + 128 ≤ m →
        x.sending c w m = ({ w with dwOperStage := stageEnd }, x.document w, ((x.document w).length : ℤ))) ∧
      ∀ n, ((blocks x c w sizes n).1.dwOperStage = stageEnd → (blocks x c w sizes n).2 = x.document w) ∧
        ((blocks x c w sizes n).1.dwOperStage ≠ stageEnd → Going x c w (sizes n) (blocks x c w sizes n)) := by
  constructor
  · intro m hm
    have hzero : w.dwOperStage < 17 := by omega
    obtain ⟨k, hsent⟩ := sending_sent hc hzero hfit m
    have hblock := hsent.block
    rw [hstage, List.drop_zero] at hblock
    rcases hsent.moved with ⟨hend, hr⟩ | ⟨-, -, hmore⟩
    · have htake : (x.lines (address w)).take k = x.lines (address w) :=
        List.take_of_length_le (by rw [lines_length]; omega)
      rw [htake] at hblock
      have hcount := hsent.count
      rw [hblock] at hcount
      exact Prod.ext hr (Prod.ext hblock hcount)
    · -- the elements together leave more than 128 bytes
      have hle : (x.sending c w m).2.1.length ≤ (x.document w).length := by
        have hsub := ((x.lines (address w)).take_sublist k).flatten.length_le
        rw [hblock]
        exact hsub
      omega
  · intro n
    have h := blocks_described hc hstage hfit sizes n
    generalize blocks x c w sizes n = r at h
    cases h with
    | ended => exact ⟨fun _ => rfl, fun hno => absurd rfl hno⟩
    | @going s hs =>
      refine ⟨fun hend => ?_, fun _ => ?_⟩
      · have hs' : s = stageEnd := hend
        unfold stageEnd at hs'
        omega
      · obtain ⟨k, hsent⟩ := @sending_sent x c hc { w with dwOperStage := s } hs hfit (sizes n)
        refine ⟨rfl, hsent.count, ?_, hsent.advances hs, sending_waits hc hs⟩
        rw [hsent.count]
        exact hsent.fits

end DeviceStrings

/-! ## This device -/

theorem dotted_text (ip : ℕ) : (Device.dotted ip).length ≤ 15 ∧ (0 : UInt8) ∉ Device.dotted ip := by
  have hlength (n : ℕ) : (natText (n % 256)).length ≤ 3 := natText_length (by omega)
  have h0 (n : ℕ) : (0 : UInt8) ∉ natText n := not_mem_digits (natText_isDigit n) rfl
  constructor
  · have h1 := hlength (ip / 2 ^ 24)
    have h2 := hlength (ip / 2 ^ 16)
    have h3 := hlength (ip / 2 ^ 8)
    have h4 := hlength ip
    unfold Device.dotted
    simp only [List.length_append, List.length_singleton]
    omega
  · unfold Device.dotted
    simp only [List.mem_append, List.mem_singleton, not_or, h0, not_false_eq_true, true_and, and_true]
    decide

theorem address_fit {a b t : Bytes} (hab : a.length + b.length < 113 ∧ (0 : UInt8) ∉ a ∧ (0 : UInt8) ∉ b)
    (ht : t.length ≤ 15 ∧ (0 : UInt8) ∉ t) : (a ++ (t ++ b)).length < 128 ∧ (0 : UInt8) ∉ a ++ (t ++ b) := by
  constructor
  · rw [List.length_append, List.length_append]
    omega
  · simp [hab, ht]

/-- The elements of this device fit, whatever its address is. -/
theorem deviceStrings_fit (ip : ℕ) : deviceStrings.Fit (Device.dotted ip) := by
  have htext := dotted_text ip
  generalize Device.dotted ip = szIP at htext
  have hurl := @address_fit ([60] ++ bytes "URLBase" ++ [62] ++ bytes "https://")
    ([60, 47] ++ bytes "URLBase" ++ [62] ++ crlf) szIP (by decide +kernel) htext
  have hpresentation := @address_fit ([60] ++ bytes "presentationURL" ++ [62] ++ bytes "https://")
    ([60, 47] ++ bytes "presentationURL" ++ [62] ++ crlf) szIP (by decide +kernel) htext
  simp only [List.append_assoc] at hurl hpresentation
  unfold DeviceStrings.Fit DeviceStrings.lines
  simp only [List.forall_mem_cons, List.not_mem_nil, false_implies, implies_true, and_true, List.append_assoc]
  refine ⟨?_, ?_, ?_, hurl, ?_, ?_, ?_, hpresentation, ?_, ?_, ?_, ?_, ?_, ?_, ?_, ?_, ?_⟩ <;> decide +kernel

/-- `SSDP_Sending` is the description of this device. -/
theorem ssdpSending_device (c : Core) (w : Work) (maxSize : ℤ) :
    ssdpSending c w maxSize = deviceStrings.sending c w maxSize :=
  ssdpSending_eq c (deviceStrings_fit _) maxSize

/-- A request for the description. -/
def askDescription : Core := { Core.zero 0 with requestMethod := some .get }

/-- Room for a few elements, and every other time for none. -/
def unevenSizes (n : ℕ) : ℤ := if n % 2 = 0 then 300 else 100

theorem ssdp_description_uneven :
    let w := Work.zero World.boot
    deviceStrings.sending askDescription w 2000 =
        ({ w with dwOperStage := stageEnd }, deviceStrings.document w, ((deviceStrings.document w).length : ℤ)) ∧
      (deviceStrings.blocks askDescription w unevenSizes 3).1.dwOperStage = 9 ∧
      deviceStrings.Going askDescription w 100 (deviceStrings.blocks askDescription w unevenSizes 3) ∧
      (deviceStrings.blocks askDescription w unevenSizes 7).2 = deviceStrings.document w := by
  obtain ⟨hall, hafter⟩ := @DeviceStrings.ssdp_description deviceStrings askDescription rfl
    (Work.zero World.boot) rfl (deviceStrings_fit _) unevenSizes
  have hstages : (deviceStrings.blocks askDescription (Work.zero World.boot) unevenSizes 3).1.dwOperStage = 9 ∧
      (deviceStrings.blocks askDescription (Work.zero World.boot) unevenSizes 7).1.dwOperStage = stageEnd := by
    decide +kernel
  have hgoing : (9 : ℕ) ≠ stageEnd := by decide +kernel
  have hthird := (hafter 3).2 (by rw [hstages.1]; exact hgoing)
  rw [show unevenSizes 3 = 100 from rfl] at hthird
  exact ⟨hall 2000 (by decide +kernel), hstages.1, hthird, (hafter 7).1 hstages.2⟩

end StraightHttpd
