import StraightHttpd.Utils

/-! # Device information and configuration (`lwip-port/win32/arch/port_device.c`)

The constant device strings, and the two configuration records: the working one, and the one that
form posts write into before it is applied as a whole.
-/

set_option autoImplicit false

namespace StraightHttpd
open CMemory

def getVendor : Bytes := bytes "Straight"
def getVendorURL : Bytes := bytes "https://github.com/straight-coding/"
def getModel : Bytes := bytes "straight-httpd"
def getModelURL : Bytes := bytes "https://github.com/straight-coding/straight-httpd"
def getDeviceName : Bytes := bytes "Virtual Device"
def getDeviceVersion : Bytes := bytes "v1.0.0"
def getDeviceSN : Bytes := bytes "2020-04-10"
def getDeviceUUID : Bytes := bytes "A5757C42-0234-4600-8E0F-8551B7EAEB7A"
def getMyMAC : List ℕ := [0x00, 0x00, 0x00, 0x20, 0xAA, 0x74]

/-- `DeviceConfig` -/
structure DeviceConfig where
  nDhcpEnabled : ℕ
  dwIP : ℕ
  dwSubnet : ℕ
  dwGateway : ℕ
  nLog : ℤ
  nSessionTimeout : ℤ
  szColor : Bytes
  szDate : Bytes
  szFont : Bytes
  szLocation : Bytes
  deriving DecidableEq, Repr

/-- The record that `InitDevInfo` fills in. -/
def initConfig : DeviceConfig where
  nDhcpEnabled := 1
  dwIP := 0
  dwSubnet := 0
  dwGateway := 0
  nLog := 0
  nSessionTimeout := 3 * 60 * 1000
  szColor := []
  szDate := []
  szFont := []
  szLocation := []

/-- `g_WorkConfig` and `g_TempConfig`. -/
structure Device where
  work : DeviceConfig
  temp : DeviceConfig
  deriving DecidableEq, Repr

namespace Device

/-- `InitDevInfo` -/
def initDevInfo : Device := { work := initConfig, temp := initConfig }

/-! ## Reading the working configuration -/

def getMyIP (d : Device) : ℕ := d.work.dwIP
def getSessionTimeout (d : Device) : ℤ := d.work.nSessionTimeout

/-- The `%d.%d.%d.%d` of an address. -/
def dotted (ip : ℕ) : Bytes :=
  natText (ip / 2 ^ 24 % 256) ++ [46] ++ natText (ip / 2 ^ 16 % 256) ++ [46] ++
    natText (ip / 2 ^ 8 % 256) ++ [46] ++ natText (ip % 256)

/-- `%02X` -/
def hex2Text (n : ℕ) : Bytes := [hexDigit (n / 16 % 16), hexDigit (n % 16)]

def fillDhcp (d : Device) : Bytes := bytes (if d.work.nDhcpEnabled > 0 then "1" else "0")
def fillMAC (_ : Device) : Bytes := (getMyMAC.map hex2Text).intersperse [58] |>.flatten
def fillIP (d : Device) : Bytes := dotted d.work.dwIP
def fillGateway (d : Device) : Bytes := dotted d.work.dwGateway
def fillSubnet (d : Device) : Bytes := dotted d.work.dwSubnet
def fillSessionTimeout (d : Device) : Bytes :=
  natText (u32 (d.work.nSessionTimeout.tdiv (60 * 1000)))
def fillLog (d : Device) : Bytes := bytes (if d.work.nLog > 0 then "1" else "0")

/-! ## Changing it from the network -/

def setMyIPLong (d : Device) (addr : ℕ) : Device := { d with work := { d.work with dwIP := addr } }
def setGatewayLong (d : Device) (addr : ℕ) : Device :=
  { d with work := { d.work with dwGateway := addr } }
def setSubnetLong (d : Device) (addr : ℕ) : Device :=
  { d with work := { d.work with dwSubnet := addr } }

/-! ## Editing -/

/-- `LoadConfig4Edit` -/
def loadConfig4Edit (d : Device) : Device := { d with temp := d.work }

/-- `AppyConfig` -/
def appyConfig (d : Device) : Device := { d with work := d.temp }

end Device

/-! ## The setters of `g_TempConfig` -/

namespace DeviceConfig

/-- `strncpy` into a field of 16 bytes that was cleared before. -/
def text16 (value : Bytes) : Bytes := (cstr value).take 15

def setLocation (c : DeviceConfig) (value : Bytes) : DeviceConfig := { c with szLocation := text16 value }
def setColor (c : DeviceConfig) (value : Bytes) : DeviceConfig := { c with szColor := text16 value }
def setDate (c : DeviceConfig) (value : Bytes) : DeviceConfig := { c with szDate := text16 value }
def setFont (c : DeviceConfig) (value : Bytes) : DeviceConfig := { c with szFont := text16 value }
def setLog (c : DeviceConfig) (value : Bytes) : DeviceConfig := { c with nLog := ston value }
def setDhcpEnabled (c : DeviceConfig) (value : Bytes) : DeviceConfig :=
  { c with nDhcpEnabled := if ston value ≠ 0 then 1 else 0 }
def setSessionTimeout (c : DeviceConfig) (value : Bytes) : DeviceConfig :=
  { c with nSessionTimeout := wrap32 (60 * 1000 * ston value) }
def setMyIP (c : DeviceConfig) (addr : Bytes) : DeviceConfig := { c with dwIP := getIpAddress addr }
def setGateway (c : DeviceConfig) (addr : Bytes) : DeviceConfig :=
  { c with dwGateway := getIpAddress addr }
def setSubnet (c : DeviceConfig) (addr : Bytes) : DeviceConfig :=
  { c with dwSubnet := getIpAddress addr }

end DeviceConfig

end StraightHttpd
