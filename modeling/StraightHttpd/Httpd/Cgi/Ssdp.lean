import StraightHttpd.Httpd.Web

/-! # The UPnP device description (`cgi/cgi_ssdp.c`) -/

set_option autoImplicit false

namespace StraightHttpd
open CMemory

/-- `SSDP_SendHeader` -/
def ssdpSendHeader (c : Core) (a : App) (_ : Bytes) : App :=
  let contentType := bytes "text/xml; charset=\"utf-8\""
  let text := headerChunked (bytes "200 OK") contentType headerNocache connectionHeader
  if c.requestMethod = some .get then { a with sendBuffer := sprintfAt a.sendBuffer 0 text } else a

/-- The lines of the description, one for each stage. -/
def ssdpLines (d : Device) : List Bytes :=
  let szIP := Device.dotted d.getMyIP
  let element (name text : Bytes) : Bytes :=
    [60] ++ name ++ [62] ++ text ++ [60, 47] ++ name ++ [62] ++ crlf
  [ bytes "<?xml version=\"1.0\"?>\r\n",
    bytes "<root xmlns=\"urn:schemas-upnp-org:device-1-0\">\r\n",
    bytes "<specVersion><major>1</major><minor>0</minor></specVersion>\r\n",
    element (bytes "URLBase") (bytes "https://" ++ szIP),
    bytes "<device>\r\n",
    element (bytes "deviceType") (bytes "urn:schemas-upnp-org:device:Basic:1"),
    element (bytes "friendlyName") getDeviceName,
    element (bytes "presentationURL") (bytes "https://" ++ szIP),
    element (bytes "manufacturer") getVendor,
    element (bytes "manufacturerURL") getVendorURL,
    element (bytes "modelDescription") getModel,
    element (bytes "modelName") getModel,
    element (bytes "modelNumber") (getDeviceName ++ bytes " (" ++ getDeviceVersion ++ bytes ")"),
    element (bytes "modelURL") getModelURL,
    element (bytes "serialNumber") getDeviceSN,
    element (bytes "UDN") (bytes "uuid:" ++ getDeviceUUID),
    bytes "</device>\r\n</root>\r\n" ]

/-- The lines from the present stage on, as far as there is room for 128 bytes more. -/
def ssdpLoop (maxSize : ℤ) (w : Work) (out : Bytes) : List Bytes → Work × Bytes
  | [] => ({ w with dwOperStage := stageEnd }, out)
  | line :: rest =>
    if (out.length : ℤ) > maxSize - 128 then (w, out)
    else ssdpLoop maxSize { w with dwOperStage := nextStage w.dwOperStage } (out ++ line) rest

/-- `SSDP_Sending` -/
def ssdpSending (c : Core) (w : Work) (maxSize : ℤ) : Work × Bytes × ℤ :=
  if c.requestMethod = some .get then
    if w.dwOperStage = stageEnd then (w, [], -1)
    else match ssdpLoop maxSize w [] ((ssdpLines w.world.device).drop w.dwOperStage) with
      | (w, out) => (w, out, out.length)
  else (w, [], 0)

end StraightHttpd
