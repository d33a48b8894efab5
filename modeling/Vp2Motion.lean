import Vp2Motion.Proofs.Handover
import Vp2Motion.Proofs.Joint
import Vp2Motion.Proofs.Driver
import Vp2Motion.Proofs.Direction
import Vp2Motion.Proofs.Position
import Vp2Motion.Proofs.Move
import Vp2Motion.CString.Basic
import Vp2Motion.Firmware.Cmdline
import Vp2Motion.Line.Editor
import Vp2Motion.Proofs.History
import Vp2Motion.Proofs.ClosedForm
import Vp2Motion.Proofs.PulseShape
import Vp2Motion.Proofs.Spacing
import Vp2Motion.Proofs.Reversal
import Vp2Motion.Hdl.Motion
import Vp2Motion.Proofs.ByteLanes
import Vp2Motion.Firmware.Main
import Vp2Motion.Proofs.Start
import Vp2Motion.Firmware.Diskio
import Vp2Motion.Proofs.Mmc
import Vp2Motion.Device.SdCard
import Vp2Motion.Proofs.DiskRead
import Vp2Motion.Proofs.Bootelf
import Vp2Motion.Proofs.LoadedImage
import Vp2Motion.Firmware.Console
import Vp2Motion.CString.Words
import Vp2Motion.Proofs.Console
import Vp2Motion.Proofs.Dispatch
import Vp2Motion.Line.Screen
import Vp2Motion.Proofs.Screen
import Vp2Motion.Hdl.UartliteTx
import Vp2Motion.Serial.Frame
import Vp2Motion.Proofs.Transmitter
import Vp2Motion.Proofs.DriverEnable
import Vp2Motion.Fallible.Program
import Vp2Motion.Storage.Chained
import Vp2Motion.Firmware.Fatfs.Basic
import Vp2Motion.Firmware.Fatfs.File
import Vp2Motion.Firmware.Fatfs.Directory
import Vp2Motion.Firmware.Fatfs.Mount
import Vp2Motion.Proofs.FileSeek
import Vp2Motion.Proofs.FileCalls
import Vp2Motion.Proofs.DirSearch
import Vp2Motion.Proofs.BootRecord
import Vp2Motion.Proofs.PathOpen
import Vp2Motion.Proofs.BootFaults
import Vp2Motion.Proofs.ShortName
import Vp2Motion.Serial.Alike
import Vp2Motion.Device.Scripted
import Vp2Motion.Firmware.Fatfs.Drive
import Vp2Motion.Proofs.SdDrive
import Vp2Motion.Hdl.UartliteCore
import Vp2Motion.Proofs.CoreLink
import Vp2Motion.Proofs.GhostWord
