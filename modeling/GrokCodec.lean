import GrokCodec.MqCoder.RoundTrip
import GrokCodec.MqCoder.Segments
import GrokCodec.PointTransform.Lossless
import GrokCodec.Codestream.PLTileParts
import GrokCodec.Transcode.Order
import GrokCodec.Transcode.Preserve
import GrokCodec.Transcode.Reorganize
import GrokCodec.Weft.Ring
import GrokCodec.Weft.Wakeup
import GrokCodec.Mercury.ScheduleOrder
import GrokCodec.Mercury.Draw
import GrokCodec.Canvas.Partition
import GrokCodec.T2.PacketMask
import GrokCodec.T1.HeaderEnds
import GrokCodec.T1.HeaderIndependence
import GrokCodec.RateControl.Telescope
import GrokCodec.RateControl.Budgets
import GrokCodec.T2.HeaderBits
import GrokCodec.T2.TagTreeDecode
import GrokCodec.Mercury.TileGeom
import GrokCodec.Codestream.TileGrid
import GrokCodec.Canvas.SparseRun
import GrokCodec.Codestream.PPMMarker
import GrokCodec.Stream.BufferedWrite
import GrokCodec.Stream.ReadRun
import GrokCodec.Codestream.HeaderRoundTrip
import GrokCodec.T2.PacketSizes
import GrokCodec.Codestream.ProgressionOrders
import GrokCodec.Codestream.TileParts
import GrokCodec.T2.LengthFields
import GrokCodec.Util.SparseBuffer
import GrokCodec.Wavelet.KernelLine
import GrokCodec.Cache.CompressedChunkCache
import GrokCodec.Tile.Ingest
