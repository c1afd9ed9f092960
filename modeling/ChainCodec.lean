import ChainCodec.Proofs.Amplification
import ChainCodec.Proofs.DecimalTexts
import ChainCodec.Proofs.Decoded
import ChainCodec.Proofs.DepthBalance
import ChainCodec.Proofs.DepthLimit
import ChainCodec.Proofs.DroppedRegistry
import ChainCodec.Proofs.ErrorKinds
import ChainCodec.Proofs.ErrorPaths
import ChainCodec.Proofs.Extension
import ChainCodec.Proofs.FeeEstimates
import ChainCodec.Proofs.FeeSegment
import ChainCodec.Proofs.HexOrder
import ChainCodec.Proofs.Idempotence
import ChainCodec.Proofs.InPlace
import ChainCodec.Proofs.InstallOnce
import ChainCodec.Proofs.JsonBridge
import ChainCodec.Proofs.JsonRoundTrip
import ChainCodec.Proofs.KeyTexts
import ChainCodec.Proofs.Locality
import ChainCodec.Proofs.ObjectIdForms
import ChainCodec.Proofs.OrderIndependence
import ChainCodec.Proofs.PtsAddresses
import ChainCodec.Proofs.ReaderBounds
import ChainCodec.Proofs.Reconfiguration
import ChainCodec.Proofs.Reencoding
import ChainCodec.Proofs.ShortestVarint
import ChainCodec.Proofs.SigningCommitment
import ChainCodec.Proofs.SortedVectors
import ChainCodec.Proofs.TextKeys
import ChainCodec.Proofs.TimeTexts
import ChainCodec.Proofs.WireOrder
import ChainCodec.Proofs.WireRoundTrip
import ChainCodec.Protocol
