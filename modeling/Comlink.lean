import Comlink.ClientChecksum
import Comlink.CommandBuffers
import Comlink.Commands
import Comlink.FieldPositions
import Comlink.HeaderFailures
import Comlink.HttpAnswer
import Comlink.PacketStore
import Comlink.PayloadOnly
import Comlink.Pipelined
import Comlink.ReplyDelivery
import Comlink.ReplyRoom
import Comlink.TcpCheckSum
import Comlink.TrailerBuffer
import Comlink.Ws.Deliveries
import Comlink.Ws.Refused
import Comlink.Ws.Write
