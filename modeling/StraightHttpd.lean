import StraightHttpd.Base64Decode
import StraightHttpd.Httpd.AccessGate
import StraightHttpd.Httpd.CallbackOrder
import StraightHttpd.Httpd.CancelNotice
import StraightHttpd.Httpd.ChunkedBody
import StraightHttpd.Httpd.ChunkedReply
import StraightHttpd.Httpd.ConditionalGet
import StraightHttpd.Httpd.ContextTimeout
import StraightHttpd.Httpd.DeviceFrame
import StraightHttpd.Httpd.DirectoryListing
import StraightHttpd.Httpd.FormBody
import StraightHttpd.Httpd.FormUpdates
import StraightHttpd.Httpd.HeaderFields
import StraightHttpd.Httpd.LoginCheck
import StraightHttpd.Httpd.Pairing
import StraightHttpd.Httpd.PathConfinement
import StraightHttpd.Httpd.ReceiveQueue
import StraightHttpd.Httpd.RequestLine
import StraightHttpd.Httpd.RequestLoop
import StraightHttpd.Httpd.ResponseStream
import StraightHttpd.Httpd.SendBuffer
import StraightHttpd.Httpd.SessionOwners
import StraightHttpd.Httpd.SessionTokens
import StraightHttpd.Httpd.Settings
import StraightHttpd.Httpd.SsdpDescription
import StraightHttpd.Httpd.SsiBounds
import StraightHttpd.Httpd.SsiExpansion
import StraightHttpd.Httpd.SsiTermination
import StraightHttpd.Httpd.RangeHeader
import StraightHttpd.Httpd.RangeServing
import StraightHttpd.Httpd.StringFields
import StraightHttpd.Httpd.UploadStored
import StraightHttpd.Httpd.WebImage
import StraightHttpd.Port.FramePath
import StraightHttpd.Ssdp.Announcements
import StraightHttpd.Lib.Outbox
import StraightHttpd.Httpd.FileHolds
import StraightHttpd.Httpd.HandleCustody
