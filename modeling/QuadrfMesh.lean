import QuadrfMesh.Lora.Coding
import QuadrfMesh.Lib.BitWord
import QuadrfMesh.Lora.Interleaver
import QuadrfMesh.Lora.Block
import QuadrfMesh.Lib.Chunks
import QuadrfMesh.Lora.Frame
import QuadrfMesh.Lora.FrameRoundTrip
import QuadrfMesh.Lib.Transition
import QuadrfMesh.Phy.Transmitter
import QuadrfMesh.Phy.PaWatchdog
import QuadrfMesh.Lib.Recent
import QuadrfMesh.Phy.Echo
import QuadrfMesh.Phy.LoFollow
import QuadrfMesh.AirIpc.Deframer
import QuadrfMesh.Radio.WriteFrame
import QuadrfMesh.Phy.Modem
import QuadrfMesh.Lib.Rounding
import QuadrfMesh.Lib.Asking
import QuadrfMesh.Receiver.Buffer
import QuadrfMesh.Receiver.Finalize
import QuadrfMesh.Receiver.Data
import QuadrfMesh.Receiver.Session
import QuadrfMesh.Receiver.Chunking
import QuadrfMesh.Receiver.SoftHeader
import QuadrfMesh.Receiver.FrameLength
import QuadrfMesh.AirIpc.Stream
import QuadrfMesh.Lib.Fifo
import QuadrfMesh.Phy.TxStream
import QuadrfMesh.Phy.BurstSwitch
import QuadrfMesh.Phy.TxThread
import QuadrfMesh.Radio.Notify
import QuadrfMesh.Lora.FrameCount
import QuadrfMesh.Lora.Soft
import QuadrfMesh.Receiver.Queue
import QuadrfMesh.Receiver.FrameCheck
import QuadrfMesh.Receiver.SyncFlag
import QuadrfMesh.Receiver.Lattice
import QuadrfMesh.Lib.Streaming
import QuadrfMesh.Dsp.DecimatingFir
import QuadrfMesh.Dsp.Ddc
import QuadrfMesh.Stream.Framer
import QuadrfMesh.Stream.BleBridge
import QuadrfMesh.Lib.Varint
import QuadrfMesh.Bridge.PbWire
import QuadrfMesh.Mesh.Packet
import QuadrfMesh.Bridge.PhoneApi
import QuadrfMesh.Bridge.Crypto
import QuadrfMesh.Bridge.FromRadio
import QuadrfMesh.Bridge.Session
import QuadrfMesh.Lib.Ledger
import QuadrfMesh.Meshtastic.Fanout
import QuadrfMesh.Meshtastic.SendToPhone
import QuadrfMesh.Receiver.Calls
import QuadrfMesh.AirIpc.Resync
import QuadrfMesh.Lib.ShiftRegister
import QuadrfMesh.Lora.ChipErrors
import QuadrfMesh.Lora.PayloadCrc
import QuadrfMesh.Lib.Correlation
import QuadrfMesh.Lib.WrapClock
import QuadrfMesh.Lora.SoftAgree
import QuadrfMesh.Meshtastic.Parrot
import QuadrfMesh.Radio.PacketTime
import QuadrfMesh.Receiver.Recovery
import QuadrfMesh.Receiver.Advance
import QuadrfMesh.Receiver.Process
import QuadrfMesh.Receiver.PreambleSlope
import QuadrfMesh.Mesh.Relay
import QuadrfMesh.Lib.Beam
import QuadrfMesh.Lib.Lines
import QuadrfMesh.Lib.Turn
import QuadrfMesh.Phy.Telemetry
import QuadrfMesh.Receiver.Rotation
import QuadrfMesh.Receiver.SlipSearch
import QuadrfMesh.Lib.Fourier
import QuadrfMesh.Lora.Modulator
import QuadrfMesh.Lora.SymbolDemod
import QuadrfMesh.Lora.AirRoundTrip
import QuadrfMesh.Lib.Elimination
import QuadrfMesh.Lib.LeastSquares
import QuadrfMesh.Lora.Wander
import QuadrfMesh.Lora.WanderBlocks
import QuadrfMesh.Lora.WanderTone
import QuadrfMesh.Lib.Kalman
import QuadrfMesh.Receiver.CarrierFilter
import QuadrfMesh.Radio.Receive
import QuadrfMesh.Phy.AirStream
import QuadrfMesh.Radio.Delivery
import QuadrfMesh.Lib.Numerals
import QuadrfMesh.Phy.TelemetryMonitor
import QuadrfMesh.Phy.MonitorTable
import QuadrfMesh.Phy.RxPath
import QuadrfMesh.Lib.WhiteNoise
import QuadrfMesh.Dsp.Cascade
import QuadrfMesh.Dsp.NoiseBandwidth
import QuadrfMesh.Radio.ModemSync
import QuadrfMesh.Radio.Callsign
