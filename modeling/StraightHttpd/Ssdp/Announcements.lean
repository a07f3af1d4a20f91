import StraightHttpd.Httpd.SsdpDescription
import StraightHttpd.Ssdp.MSearch

/-! # SSDP messages and their ways (`ssdp/ssdp.c`)

A device announces itself to the group from time to time and answers searches. Its messages are built line by
line in a buffer of 768 bytes. On a network with any number of such devices, where datagrams get lost,
duplicated and reordered, no device answers what another device has sent.
-/

set_option autoImplicit false

namespace StraightHttpd
open CMemory

namespace Ssdp

/-- `SSDP_TYPES` -/
inductive SsdpTypes
  | advertiseUp
  | advertiseDown
  | msearchReply
  deriving DecidableEq, Repr

def msgSize : ℕ := 768 -- sizeof(msg)

/-- `LWIP_sprintf(msg + strlen(msg), ...)` -/
def append (msg text : Bytes) : Bytes := poke msg (strlen msg) (text ++ [0])

def cacheControl : Bytes := bytes "CACHE-CONTROL: max-age=1800\r\n"

/-- What the message starts with. -/
def SsdpTypes.opening (x : DeviceStrings) : SsdpTypes → List Bytes
  | .advertiseUp =>
    [bytes "NOTIFY * HTTP/1.1\r\n", bytes "HOST: 239.255.255.250:1900\r\n", cacheControl, bytes "NTS: ssdp:alive\r\n"]
  | .advertiseDown =>
    [bytes "NOTIFY * HTTP/1.1\r\n", bytes "HOST: 239.255.255.250:1900\r\n", cacheControl, bytes "NTS: ssdp:byebye\r\n"]
  | .msearchReply =>
    [bytes "HTTP/1.1 200 OK\r\n", cacheControl, bytes "EXT: webport=80\r\n", bytes "SN: " ++ x.sn ++ crlf]

def location (localhost : Bytes) : Bytes :=
  bytes "LOCATION: http://" ++ localhost ++ bytes "/upnp_device.xml" ++ crlf

/-- The lines that `ssdp_send_to` puts together; `localhost` is the address as text. -/
def messageLines (x : DeviceStrings) (localhost : Bytes) (type : SsdpTypes) : List Bytes :=
  let ntString := if type = .msearchReply then bytes "ST" else bytes "NT"
  type.opening x ++
    (if type = .advertiseDown then [] else [location localhost]) ++
    [bytes "SERVER: " ++ x.name ++ bytes ", UPnP/1.0\r\n", ntString ++ bytes ": upnp:rootdevice\r\n",
      bytes "USN: uuid:" ++ x.uuid ++ bytes "::upnp:rootdevice\r\n", crlf]

/-- `msg` when `ssdp_send_to` is about to send it. -/
def msg (x : DeviceStrings) (localhost : Bytes) (type : SsdpTypes) : Bytes :=
  (messageLines x localhost type).foldl append (List.replicate msgSize 0)

/-- `ssdp_send_to`, as far as the payload goes: `strlen(msg)` bytes of `msg`. -/
def ssdpSendTo (x : DeviceStrings) (localhost : Bytes) (type : SsdpTypes) : Bytes :=
  cstr (msg x localhost type)

def uuidSize : ℕ := 128 -- sizeof(uuid_string)

/-- The strings of a device leave room for the NUL behind every message, wherever it is, and behind the copy of
the UUID. -/
structure Announces (x : DeviceStrings) (localhost : Bytes) : Prop where
  uuid : x.uuid.length < uuidSize
  plain : ∀ type, ∀ l ∈ messageLines x localhost type, (0 : UInt8) ∉ l
  room : ∀ type, (messageLines x localhost type).flatten.length < msgSize

theorem append_zeros {text t : Bytes} {k : ℕ} (htext : (0 : UInt8) ∉ text) (hk : t.length < k) :
    append (text ++ List.replicate k 0) t = text ++ t ++ List.replicate (k - t.length) 0 := by
  obtain ⟨j, rfl⟩ : ∃ j, k = t.length + 1 + j := ⟨k - (t.length + 1), by omega⟩
  have hlen : strlen (text ++ List.replicate (t.length + 1 + j) 0) = text.length := by
    rw [strlen, Nat.add_right_comm, List.replicate_succ, cstr_append_zero, cstr_of_no_nul htext]
  have hdrop : (text ++ List.replicate (t.length + 1 + j) (0 : UInt8)).drop (text.length + (t ++ [0]).length) =
      List.replicate j 0 := by
    rw [List.drop_append, List.drop_replicate]
    simp
  have hrest : t.length + 1 + j - t.length = j + 1 := by omega
  rw [append, hlen, poke, List.take_left, hdrop, hrest, List.replicate_succ]
  simp

/-- Lines that find room stand one behind the other, with zeros up to the end of the buffer. -/
theorem foldl_append {lines : List Bytes} {text : Bytes} {k : ℕ} (htext : (0 : UInt8) ∉ text)
    (hlines : ∀ l ∈ lines, (0 : UInt8) ∉ l) (hk : lines.flatten.length < k) :
    lines.foldl append (text ++ List.replicate k 0) =
      text ++ lines.flatten ++ List.replicate (k - lines.flatten.length) 0 := by
  induction lines generalizing text k with
  | nil => simp
  | cons l lines ih =>
    rw [List.flatten_cons, List.length_append] at hk
    have hl := hlines l List.mem_cons_self
    have htext' : (0 : UInt8) ∉ text ++ l := by
      rw [List.mem_append, not_or]
      exact ⟨htext, hl⟩
    rw [List.foldl_cons, append_zeros htext (by omega),
      ih htext' (fun m hm => hlines m (List.mem_cons_of_mem _ hm)) (by omega)]
    simp [List.append_assoc, Nat.sub_add_eq]

/-- A message stays in its buffer, and what is sent are its lines. -/
theorem ssdpSendTo_eq {x : DeviceStrings} {localhost : Bytes} (h : Announces x localhost) (type : SsdpTypes) :
    (msg x localhost type).length = msgSize ∧
      ssdpSendTo x localhost type = (messageLines x localhost type).flatten := by
  have hroom := h.room type
  have hplain : (0 : UInt8) ∉ (messageLines x localhost type).flatten := by
    intro hmem
    obtain ⟨l, hl, hin⟩ := List.mem_flatten.mp hmem
    exact h.plain type l hl hin
  have hfold := @foldl_append (messageLines x localhost type) [] msgSize (by simp) (h.plain type) hroom
  rw [List.nil_append, List.nil_append] at hfold
  obtain ⟨j, hj⟩ : ∃ j, msgSize - (messageLines x localhost type).flatten.length = j + 1 :=
    ⟨msgSize - (messageLines x localhost type).flatten.length - 1, by omega⟩
  unfold ssdpSendTo msg
  rw [hfold]
  constructor
  · rw [List.length_append, List.length_replicate]
    omega
  · rw [hj, List.replicate_succ, cstr_append_zero, cstr_of_no_nul hplain]

/-! ## What the listener does with them -/

/-- A datagram whose first line is no search is not answered, however long it is. -/
theorem not_answered {p : List Pbuf} {first rest : Bytes} (h : chainBytes p = first ++ lineEnd ++ rest)
    (hsize : first.length + 2 ≤ bufferSize - 4) (hnul : (0 : UInt8) ∉ first) (hline : ¬ lineEnd <:+: first)
    (hsearch : ¬ Begins first (bytes "M-SEARCH")) : (ssdpListener p).reply = false := by
  unfold ssdpListener
  split_ifs
  · rfl
  obtain ⟨k, hk⟩ : ∃ k, bufferSize - 4 = (first ++ lineEnd).length + k :=
    ⟨bufferSize - 4 - (first ++ lineEnd).length, by
      rw [List.length_append, show lineEnd.length = 2 from rfl]
      omega⟩
  have hcopied : copied p = first ++ lineEnd ++ rest.take k := by
    rw [copied_eq, h, hk, List.take_length_add_append]
  have hbound := scanBound_eq (p := p) (by rw [hcopied]; simp [lineEnd])
  have hlen : (copied p).length = first.length + 2 + (rest.take k).length := by
    rw [hcopied, List.length_append, List.length_append]
    rfl
  have hmem : szBuffer p = [] ++ ([] ++ first) ++ lineEnd ++
      (rest.take k ++ List.replicate (bufferSize - (copied p).length) 0) := by
    rw [szBuffer, hcopied]
    simp
  obtain ⟨n, hn⟩ : ∃ n, scanBound p = first.length + (n + 1) := ⟨scanBound p - (first.length + 1), by omega⟩
  have hsize' : scanBound p < (szBuffer p).length := by
    have hcut := copied_length p
    rw [szBuffer_length]
    omega
  have hscan := @scan_within (scanBound p) [] _ first [] n Search.start
    (by rw [List.nil_append]; exact hline) (by simp only [List.length_nil, List.nil_append]; omega)
    (hmem ▸ hsize')
  rw [← hmem, List.nil_append, firstLine hnul, if_neg hsearch] at hscan
  simp only [List.length_nil, Nat.add_zero, Option.elim_none, ← hn] at hscan
  rw [reply, hscan]

/-- Neither announcements nor replies are answered. -/
theorem message_unanswered {x : DeviceStrings} {localhost : Bytes} (type : SsdpTypes) {p : List Pbuf}
    (hp : chainBytes p = (messageLines x localhost type).flatten) : (ssdpListener p).reply = false := by
  have hfirst (first : Bytes) {lines : List Bytes}
      (hcons : messageLines x localhost type = (first ++ lineEnd) :: lines) :
      chainBytes p = first ++ lineEnd ++ lines.flatten := by
    rw [hp, hcons, List.flatten_cons]
  cases type with
  | msearchReply =>
    exact not_answered (hfirst (bytes "HTTP/1.1 200 OK") rfl) (by decide) (by decide) (by decide)
      (by unfold Begins; decide)
  | advertiseUp | advertiseDown =>
    exact not_answered (hfirst (bytes "NOTIFY * HTTP/1.1") rfl) (by decide) (by decide) (by decide)
      (by unfold Begins; decide)

/-! ## On the network -/

/-- A datagram: the device that sent it, if it was one, and the datagram that it answers, as a place in
`air`. -/
structure Datagram (ι : Type) where
  source : Option ι
  payload : Bytes
  answers : Option ℕ

/-- The devices with a `g_ssdpPcb`, and all that was ever sent. A datagram may reach a device at any time and
any number of times, or never. -/
structure Network (ι : Type) where
  listening : ι → Bool
  air : List (Datagram ι)

/-- What happens: others send something, a device starts, announces itself or goes down, or a datagram
reaches a device as a chain of pbufs. `localhost` is the address that the device has at that time, and `pbuf`
whether there is one for a message. -/
inductive NetworkEvent (ι : Type)
  | others (payload : Bytes)
  | ssdpInit (i : ι)
  | ssdpAdvertise (i : ι) (localhost : ℕ) (pbuf : Bool)
  | ssdpDown (i : ι) (localhost : ℕ) (pbuf : Bool)
  | receive (k : ℕ) (i : ι) (p : List Pbuf) (localhost : ℕ) (pbuf : Bool)

namespace Network

variable {ι : Type} (strings : ι → DeviceStrings)

def silent : Network ι := { listening := fun _ => false, air := [] }

/-- `ssdp_send_to` of a device. -/
def send (s : Network ι) (i : ι) (localhost : ℕ) (pbuf : Bool) (type : SsdpTypes) (answers : Option ℕ) :
    Network ι :=
  if s.listening i ∧ pbuf then
    { s with air := s.air ++ [⟨some i, ssdpSendTo (strings i) (Device.dotted localhost) type, answers⟩] }
  else s

/-- The effect of an event. -/
def fire [DecidableEq ι] (s : Network ι) : NetworkEvent ι → Network ι
  | .others payload => { s with air := s.air ++ [⟨none, payload, none⟩] }
  | .ssdpInit i => { s with listening := Function.update s.listening i true }
  | .ssdpAdvertise i localhost pbuf => s.send strings i localhost pbuf .advertiseUp none
  | .ssdpDown i localhost pbuf =>
    let s := s.send strings i localhost pbuf .advertiseDown none
    { s with listening := Function.update s.listening i false }
  | .receive k i p localhost pbuf =>
    if s.listening i ∧ (ssdpListener p).reply then s.send strings i localhost pbuf .msearchReply (some k) else s

/-- The chain that reaches a device holds a datagram that was sent. -/
def Possible (s : Network ι) : NetworkEvent ι → Prop
  | .receive k _ p _ _ => (s.air[k]?).map Datagram.payload = some (chainBytes p)
  | _ => True

def runs [DecidableEq ι] : RunSystem (Network ι) (NetworkEvent ι) where
  init s := s = silent
  step s e s' := s.Possible e ∧ s' = s.fire strings e

instance (s : Network ι) : DecidablePred s.Possible
  | .receive k _ p _ _ => inferInstanceAs (Decidable ((s.air[k]?).map Datagram.payload = some (chainBytes p)))
  | .others _ | .ssdpInit _ | .ssdpAdvertise _ _ _ | .ssdpDown _ _ _ => .isTrue trivial

/-- Every event can happen where it does. -/
def Sane [DecidableEq ι] (s : Network ι) : List (NetworkEvent ι) → Prop
  | [] => True
  | e :: es => s.Possible e ∧ Sane (s.fire strings e) es

instance Sane.decidable [DecidableEq ι] : (s : Network ι) → (es : List (NetworkEvent ι)) →
    Decidable (s.Sane strings es)
  | _, [] => .isTrue trivial
  | s, e :: es =>
    have := Sane.decidable (s.fire strings e) es
    inferInstanceAs (Decidable (s.Possible e ∧ Sane strings (s.fire strings e) es))

/-- A datagram that others have sent and that is a search. -/
def Searched (s : Network ι) (k : ℕ) : Prop :=
  ∃ e p, s.air[k]? = some e ∧ e.source = none ∧ chainBytes p = e.payload ∧ (ssdpListener p).reply = true

/-- What a device may have sent: a whole message, which is a reply exactly when it answers something, and
then a search of others. -/
structure Proper (s : Network ι) (d : Datagram ι) (i : ι) : Prop where
  whole : ∃ localhost type, d.payload = (messageLines (strings i) (Device.dotted localhost) type).flatten ∧
    (type = .msearchReply ↔ d.answers.isSome)
  outside : ∀ k, d.answers = some k → s.Searched k

def Quiet (s : Network ι) : Prop := ∀ d ∈ s.air, ∀ i, d.source = some i → s.Proper strings d i

variable {strings} {s : Network ι}

theorem Quiet.listen (h : s.Quiet strings) (listening : ι → Bool) :
    Quiet strings { s with listening := listening } :=
  fun d hd i hi => ⟨(h d hd i hi).whole, (h d hd i hi).outside⟩

theorem Searched.sent {k : ℕ} (h : s.Searched k) (listening : ι → Bool) (d : Datagram ι) :
    Searched { listening := listening, air := s.air ++ [d] } k := by
  obtain ⟨e, p, hat, hrest⟩ := h
  refine ⟨e, p, ?_, hrest⟩
  obtain ⟨hk, -⟩ := List.getElem?_eq_some_iff.mp hat
  rw [← hat]
  exact List.getElem?_append_left hk

/-- One more datagram. -/
theorem Quiet.sent (h : s.Quiet strings) (listening : ι → Bool) {d : Datagram ι}
    (hd : ∀ i, d.source = some i → s.Proper strings d i) :
    Quiet strings { listening := listening, air := s.air ++ [d] } := by
  intro e he i hi
  have hproper : s.Proper strings e i := by
    rcases List.mem_append.mp he with he | he
    · exact h e he i hi
    · rw [List.mem_singleton.mp he] at hi ⊢
      exact hd i hi
  exact ⟨hproper.whole, fun k hk => (hproper.outside k hk).sent listening d⟩

section

variable (hstrings : ∀ i localhost, Announces (strings i) (Device.dotted localhost))
include hstrings

theorem Quiet.send (h : s.Quiet strings) (i : ι) (localhost : ℕ) (pbuf : Bool) {type : SsdpTypes}
    {answers : Option ℕ} (htype : type = .msearchReply ↔ answers.isSome)
    (hanswers : ∀ k, answers = some k → s.Searched k) :
    (s.send strings i localhost pbuf type answers).Quiet strings := by
  unfold Network.send
  split_ifs
  · refine h.sent s.listening fun j hj => ?_
    obtain rfl := Option.some.inj hj
    exact ⟨⟨localhost, type, (ssdpSendTo_eq (hstrings i localhost) type).2, htype⟩, hanswers⟩
  · exact h

theorem Quiet.fire [DecidableEq ι] (h : s.Quiet strings) {e : NetworkEvent ι} (hpossible : s.Possible e) :
    (s.fire strings e).Quiet strings := by
  cases e with
  | others payload => exact h.sent s.listening fun i hi => by cases hi
  | ssdpInit i => exact h.listen _
  | ssdpAdvertise i localhost pbuf => exact h.send hstrings i localhost pbuf (by simp) (by simp)
  | ssdpDown i localhost pbuf =>
    have hsent : (s.send strings i localhost pbuf .advertiseDown none).Quiet strings :=
      h.send hstrings i localhost pbuf (by simp) (by simp)
    exact hsent.listen _
  | receive k i p localhost pbuf =>
    simp only [Network.fire]
    split_ifs with hreply
    · refine h.send hstrings i localhost pbuf (by simp) fun j hj => ?_
      obtain rfl := Option.some.inj hj
      obtain ⟨d, hat, hp⟩ := Option.map_eq_some_iff.mp hpossible
      refine ⟨d, p, hat, ?_, hp.symm, hreply.2⟩
      -- what a device has sent would not have been answered
      cases hsource : d.source with
      | none => rfl
      | some j =>
        obtain ⟨ip, type, hpayload, -⟩ := (h d (List.mem_of_getElem? hat) j hsource).whole
        have hsilent := message_unanswered type (hp.symm.trans hpayload)
        rw [hreply.2] at hsilent
        cases hsilent
    · exact h

/-- In every run of any number of devices, whatever is lost, duplicated or reordered: what a device sends is
one of its messages as a whole, and every answer is one to a search that no device has sent. -/
theorem no_echo [DecidableEq ι] (h : (runs strings).Reach s) : s.Quiet strings := by
  refine h.invariant (P := Quiet strings) ?_ ?_
  · rintro s rfl d hd
    cases hd
  · rintro s e t hs ⟨hpossible, rfl⟩
    exact hs.fire hstrings hpossible

end

theorem reach_sane [DecidableEq ι] {es : List (NetworkEvent ι)} (hs : (runs strings).Reach s)
    (hsane : s.Sane strings es) : (runs strings).Reach (es.foldl (fire strings) s) := by
  induction es generalizing s with
  | nil => exact hs
  | cons e es ih => exact ih (hs.step e ⟨hsane.1, rfl⟩) hsane.2

end Network

/-- An address makes a message longer by its text. -/
theorem Announces.of_address {x : DeviceStrings} {address : Bytes} (h : Announces x [])
    (haddress : (0 : UInt8) ∉ address)
    (hroom : ∀ type, (messageLines x [] type).flatten.length + address.length < msgSize) : Announces x address := by
  refine ⟨h.uuid, ?_, ?_⟩
  · intro type l hl
    have hplain := h.plain type l
    simp only [messageLines, List.mem_append] at hplain hl
    rcases hl with (hl | hl) | hl
    · exact hplain (.inl (.inl hl))
    · split_ifs at hl
      · cases hl
      · rw [List.mem_singleton.mp hl, location]
        simp only [List.mem_append, not_or, haddress, not_false_eq_true, and_true]
        decide
    · exact hplain (.inr hl)
  · intro type
    refine lt_of_le_of_lt ?_ (hroom type)
    cases type <;> simp [messageLines, location] <;> omega

/-- The strings of `port_device.c` leave room for any address. -/
theorem deviceStrings_announces (localhost : ℕ) : Announces deviceStrings (Device.dotted localhost) := by
  obtain ⟨hlength, hplain⟩ := dotted_text localhost
  have hroom (type : SsdpTypes) : (messageLines deviceStrings [] type).flatten.length < msgSize - 15 := by
    cases type <;> decide +kernel
  have hbare : Announces deviceStrings [] := by
    refine ⟨by decide, fun type => ?_, fun type => (hroom type).trans_le (Nat.sub_le ..)⟩
    cases type <;> decide +kernel
  refine hbare.of_address hplain fun type => ?_
  have htype := hroom type
  omega

/-- The announcement of the first of two devices reaches both, and a search the second. -/
@[irreducible] def oneSearch : List (NetworkEvent Bool) :=
  let search := bytes "M-SEARCH * HTTP/1.1\r\nHost: x\r\nMan: \"ssdp:discover\"\r\nMX: 1\r\nST: ssdp:all\r\n\r\n"
  let announcement := ssdpSendTo deviceStrings (Device.dotted 0) .advertiseUp
  [.ssdpInit false, .ssdpInit true, .ssdpAdvertise false 0 true, .others search,
    .receive 0 false [⟨announcement, 0⟩] 0 true, .receive 0 true [⟨announcement, 0⟩] 0 true,
    .receive 1 true [⟨search, 0⟩] 0 true]

theorem no_echo_search :
    (oneSearch.foldl (Network.fire fun _ => deviceStrings) .silent).Quiet (fun _ => deviceStrings) ∧
    (oneSearch.foldl (Network.fire fun _ => deviceStrings) .silent).air.map (fun d => (d.source, d.answers)) =
      [(some false, none), (none, none), (some true, some 1)] := by
  have hrun : Network.Sane (fun _ => deviceStrings) .silent oneSearch ∧
      (oneSearch.foldl (Network.fire fun _ => deviceStrings) .silent).air.map (fun d => (d.source, d.answers)) =
        [(some false, none), (none, none), (some true, some 1)] := by
    decide +kernel
  exact ⟨Network.no_echo (fun _ => deviceStrings_announces) (Network.reach_sane (.init rfl) hrun.1), hrun.2⟩

end Ssdp

end StraightHttpd
