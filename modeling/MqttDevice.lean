import MqttDevice.NetTimers
import MqttDevice.UartQueue
import MqttDevice.UartMemory
import MqttDevice.UartDma
import MqttDevice.Usart1
import MqttDevice.Signaling
import MqttDevice.TelemetryMemory
import MqttDevice.Inbound
import MqttDevice.Dispatch
import MqttDevice.EthernetifInput
import MqttDevice.Enc28j60.Receive
import MqttDevice.Enc28j60.Header
import MqttDevice.Enc28j60.Banks
import MqttDevice.DataCallback
import MqttDevice.InboundLog
import MqttDevice.Lib.Chunks
import MqttDevice.Lwip.MqttFraming
import MqttDevice.Lib.Fifo
import MqttDevice.Lwip.MqttPublish
import MqttDevice.Lwip.MqttSend
import MqttDevice.Lwip.MqttStream
import MqttDevice.Lib.DeltaList
import MqttDevice.Lib.Links
import MqttDevice.Lib.Machine
import MqttDevice.Lwip.MqttPending
import MqttDevice.CJson.RoundTrip
import MqttDevice.Rtt.UpBuffer
import MqttDevice.Lwip.Timeouts
import MqttDevice.Lwip.TimerLaws
import MqttDevice.Lib.Tiles
import MqttDevice.Lwip.Mem
import MqttDevice.Lwip.MemOps
import MqttDevice.Lwip.MemRuns
import MqttDevice.Lib.OnesComplement
import MqttDevice.Lwip.InetChksum
import MqttDevice.Lwip.TcpChksum
import MqttDevice.Lwip.MqttDeadline
