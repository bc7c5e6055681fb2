import Zou.LeaseTakeover
import Zou.PlacementSafety
import Zou.PointInTimeRuns
import Zou.RegistrySafety
import Zou.AttachSafety
import Zou.LocalFsRuns
import Zou.WalAgree
import Zou.CaptureRuns
import Zou.HorizonAlone
import Zou.SequencerEpochs
import Zou.MergedFullSpec
import Zou.ShardCas
import Zou.ZouFileRuns
import Zou.PageCache
import Zou.SealedRoundTrip
import Zou.Realtime.BindingSpec
import Zou.TusSafety
import Zou.MediaPresence
import Zou.LineageSafety
import Zou.ChainHead
import Zou.ConsolidateSafety
import Zou.TakeoverProgress
import Zou.Realtime.DroppedSafety
import Zou.Realtime.HubSafety
import Zou.Realtime.ReaderSafety
import Zou.PlacementMoves
import Zou.ForkSizeSpec
import Zou.LayerNames
import Zou.TeeSafety
import Zou.Rest.PagingSpec
import Zou.Rest.Location
import Zou.Rest.ViewKeysSpec
import Zou.Rest.ViewTreeOrigins
import Zou.CronFiring
import Zou.Realtime.BroadcastSpec
import Zou.Realtime.ArrayLiteral
import Zou.TusMetadata
import Zou.BlockCacheRuns
import Zou.MemtableRuns
import Zou.S3Signature
import Zou.Deno.ExportsSpec
import Zou.BranchRaceSafety
import Zou.ReshardRuns
