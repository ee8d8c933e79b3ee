import RpEcosystem.Clocked.Machine
import RpEcosystem.Clocked.Events
import RpEcosystem.Clocked.Stream
import RpEcosystem.Clocked.Gray
import RpEcosystem.Clocked.Modulo
import RpEcosystem.Clocked.Response
import RpEcosystem.Clocked.Lanes
import RpEcosystem.Clocked.Sweeps
import RpEcosystem.Clocked.Frames
import RpEcosystem.Clocked.Rates
import RpEcosystem.Clocked.Runs
import RpEcosystem.CLib.Number
import RpEcosystem.CLib.Text
import RpEcosystem.Calendar.Gregorian
import RpEcosystem.Trigger.Core
import RpEcosystem.Trigger.Fsm
import RpEcosystem.Trigger.Scaler
import RpEcosystem.Trigger.Rate
import RpEcosystem.Trigger.Packets
import RpEcosystem.Trigger.Ready
import RpEcosystem.Trigger.Status
import RpEcosystem.Trigger.Snapshot
import RpEcosystem.Trigger.Pps
import RpEcosystem.Trigger.Comparator
import RpEcosystem.Trigger.Charge
import RpEcosystem.Writer.Core
import RpEcosystem.Writer.Bounds
import RpEcosystem.Writer.Axi
import RpEcosystem.Writer.Image
import RpEcosystem.Writer.Memory
import RpEcosystem.Fifo.Ctrl
import RpEcosystem.Fifo.Axis
import RpEcosystem.Fifo.Pointers
import RpEcosystem.AdcTest
import RpEcosystem.Cma.Ownership
import RpEcosystem.DcRemoval.Core
import RpEcosystem.DcRemoval.Chain
import RpEcosystem.DcRemoval.Settle
import RpEcosystem.RampGen
import RpEcosystem.PpsGen
import RpEcosystem.PwmGen
import RpEcosystem.TimeTrigGen
import RpEcosystem.ZeroCross
import RpEcosystem.DnaReader
import RpEcosystem.Histogram.Core
import RpEcosystem.Histogram.Bounded
import RpEcosystem.Register.Core
import RpEcosystem.Register.Storage
import RpEcosystem.Register.Responses
import RpEcosystem.Daq.ReadBuffer
import RpEcosystem.Daq.Decode
import RpEcosystem.Daq.EventWords
import RpEcosystem.Daq.Waveform
import RpEcosystem.Daq.EventTimes
import RpEcosystem.Daq.Metadata
import RpEcosystem.Daq.Units
import RpEcosystem.Daq.Rotation
import RpEcosystem.Daq.LostPulses
import RpEcosystem.Daq.GpsRegisters
import RpEcosystem.Cli.ParseParam
import RpEcosystem.Cli.Voltage
import RpEcosystem.Gps.Nmea
import RpEcosystem.Gps.Location
import RpEcosystem.Gps.Uart
import RpEcosystem.Averager.Core
import RpEcosystem.Averager.Scope
import RpEcosystem.Averager.Cleaning
import RpEcosystem.Averager.Reader
import RpEcosystem.Averager.Handshake
import RpEcosystem.Averager.Delivery
import RpEcosystem.Averager.NtoOne
import RpEcosystem.Averager.FirstGeneration
import RpEcosystem.Averager.ScopeMode
import RpEcosystem.Axis.Packetizer
import RpEcosystem.Axis.Interpolator
import RpEcosystem.Axis.Decimator
import RpEcosystem.Axis.Counter
import RpEcosystem.Axis.AxiReader
import RpEcosystem.Axis.Bram
import RpEcosystem.Axis.TlastGen
import RpEcosystem.Axis.Variable
import RpEcosystem.Axis.Lfsr
import RpEcosystem.Axis.Generator
import RpEcosystem.TinyGps.Core
import RpEcosystem.TinyGps.Terms
import RpEcosystem.TinyGps.Streams
import RpEcosystem.TinyGps.Sentences
import RpEcosystem.TinyGps.Positions
import RpEcosystem.Cli.Session
import RpEcosystem.Bitstream.Devcfg
import RpEcosystem.Bitstream.Bitfile
import RpEcosystem.Bitstream.Load
import RpEcosystem.Recorder
import RpEcosystem.Daq.Stream
