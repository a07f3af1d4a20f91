import StraightHttpd.Port.Device

/-! # SSI tags (`cgi/cgi_ssi.c`)

The tags that may stand in a page, with the value each is replaced by, and the names that a form
may post, with the setter each calls.
-/

set_option autoImplicit false

namespace StraightHttpd
open CMemory DeviceConfig

/-- `TAG_GETTER` takes the text as it is, `TAG_PROVIDER` fills the buffer itself. -/
inductive SsiGetter
  | getter (text : Device → Bytes)
  | provider (text : Device → Bytes)

/-- `g_Getters` -/
def getters : List (Bytes × SsiGetter) := [
  (bytes "DEV_VENDOR", .getter fun _ => getVendor),
  (bytes "DEV_VENDOR_URL", .getter fun _ => getVendorURL),
  (bytes "DEV_MODEL", .getter fun _ => getModel),
  (bytes "DEV_MODEL_URL", .getter fun _ => getModelURL),
  (bytes "DEV_DHCP", .provider Device.fillDhcp),
  (bytes "DEV_MAC", .provider Device.fillMAC),
  (bytes "DEV_IP", .provider Device.fillIP),
  (bytes "DEV_GATEWAY", .provider Device.fillGateway),
  (bytes "DEV_SUBNET", .provider Device.fillSubnet),
  (bytes "VAR_SESSION_TIMEOUT", .provider Device.fillSessionTimeout),
  (bytes "DEV_NAME", .getter fun _ => getDeviceName),
  (bytes "DEV_SN", .getter fun _ => getDeviceSN),
  (bytes "DEV_UUID", .getter fun _ => getDeviceUUID),
  (bytes "DEV_VERSION", .getter fun _ => getDeviceVersion),
  (bytes "VAR_LOCATION", .getter fun d => d.work.szLocation),
  (bytes "VAR_COLOR", .getter fun d => d.work.szColor),
  (bytes "VAR_DATE", .getter fun d => d.work.szDate),
  (bytes "VAR_FONT", .getter fun d => d.work.szFont),
  (bytes "VAR_LOG", .provider Device.fillLog)]

/-- `g_Setters` -/
def setters : List (Bytes × (DeviceConfig → Bytes → DeviceConfig)) := [
  (bytes "DEV_DHCP", setDhcpEnabled), (bytes "VAR_SESSION_TIMEOUT", setSessionTimeout),
  (bytes "DEV_IP", setMyIP), (bytes "DEV_GATEWAY", setGateway), (bytes "DEV_SUBNET", setSubnet),
  (bytes "VAR_LOCATION", setLocation), (bytes "VAR_COLOR", setColor), (bytes "VAR_DATE", setDate),
  (bytes "VAR_FONT", setFont), (bytes "VAR_LOG", setLog)]

/-- The setting called `name`, put to `value`; other names are ignored. -/
def setTag (c : DeviceConfig) (name value : Bytes) : DeviceConfig :=
  match setters.find? (·.1 == cstr name) with
  | some s => s.2 c value
  | none => c

/-- `TAG_Setter` -/
def tagSetter (d : Device) (name value : Bytes) : Device :=
  { d with temp := setTag d.temp name value }

/-- What `ReplaceTag` finds for a tag name, in the 64 bytes of `szTemp`. -/
def tagValue (d : Device) (tagName : Bytes) : Bytes :=
  match getters.find? (·.1 == tagName) with
  | some (_, .getter text) => (cstr (text d)).take 63
  | some (_, .provider text) => (text d).take 63
  | none => []

/-- `ReplaceTag`: the bytes appended and the length returned, which `maxAllowed` limits even when
it is negative. -/
def replaceTag (value : Bytes → Bytes) (tagName : Bytes) (maxAllowed : ℤ) : Bytes × ℤ :=
  let szTemp := value (cstr tagName)
  if szTemp = [] then ([], 0)
  else
    let valueLen : ℤ := if (szTemp.length : ℤ) ≥ maxAllowed then maxAllowed else szTemp.length
    (szTemp.take valueLen.toNat, valueLen)

/-- Values that fit are appended whole. -/
theorem replaceTag_of_fits {value : Bytes → Bytes} {tagName : Bytes} {maxAllowed : ℤ}
    (h : ((value (cstr tagName)).length : ℤ) < maxAllowed) :
    replaceTag value tagName maxAllowed =
      (value (cstr tagName), ((value (cstr tagName)).length : ℤ)) := by
  have hl : ¬ ((value (cstr tagName)).length : ℤ) ≥ maxAllowed := by omega
  simp only [replaceTag, if_neg hl, Int.toNat_natCast, List.take_length]
  split
  next he => rw [he]; rfl
  next he => rfl

theorem tagValue_length (d : Device) (tagName : Bytes) : (tagValue d tagName).length ≤ 63 := by
  unfold tagValue
  split
  · exact List.length_take_le _ _
  · exact List.length_take_le _ _
  · exact Nat.zero_le _

end StraightHttpd
