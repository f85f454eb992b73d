import Wheelson.Lib.Machine
import Wheelson.Lib.Ring
import Wheelson.Lib.Scan
import Wheelson.Lib.Sem
import Wheelson.Motor.StopWins
import Wheelson.Motor.Bridge
import Wheelson.Motor.Mailbox
import Wheelson.Motor.Independent
import Wheelson.Motor.Ends
import Wheelson.Ipc.PduFifo
import Wheelson.Ipc.WakeUp
import Wheelson.Ipc.PingPong
import Wheelson.Ipc.Tokens
import Wheelson.Control.Thread
import Wheelson.Control.Frame
import Wheelson.Control.Alert
import Wheelson.Control.Heed
import Wheelson.Control.Move
import Wheelson.Control.Heading
import Wheelson.Control.Resume
import Wheelson.Control.Position
import Wheelson.Control.Disturbed
import Wheelson.Control.Completion
import Wheelson.Control.Telemetry
import Wheelson.Control.Path
import Wheelson.Sensor.Magnetometer
import Wheelson.Lcd.Driver
import Wheelson.Lcd.Edges
import Wheelson.Tcp.Command
import Wheelson.Tcp.Wire
import Wheelson.Tcp.Update
import Wheelson.Tcp.Sender
import Wheelson.Tcp.Lost
import Wheelson.Tcp.GetBuff
import Wheelson.Tcp.BadFrames
import Wheelson.Tcp.Calibrate
import Wheelson.Web.CmdMap
import Wheelson.Cam.Frames
import Wheelson.Cam.Stream
import Wheelson.Cam.JpegClient
import Wheelson.Cam.Bounds
import Wheelson.Ipc.PduStatements
import Wheelson.Ipc.Shared
import Wheelson.Board.I2c
import Wheelson.Lcd.Ultra
import Wheelson.Lcd.Bus
import Wheelson.Control.Journey
import Wheelson.Control.Quiet
import Wheelson.Control.Reports
import Wheelson.System.Car
import Wheelson.System.Session
import Wheelson.Cam.ArduCam
import Wheelson.Cam.Moments
import Wheelson.Cam.Video
import Wheelson.Cam.Delivery
import Wheelson.Cam.Late
import Wheelson.Motor.Moves
import Wheelson.System.Supervised
