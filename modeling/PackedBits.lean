import PackedBits.BitStream.Counted
import PackedBits.Blocks.Text
import PackedBits.ByteBits
import PackedBits.ByteStream.Memory
import PackedBits.ByteStream.Script
import PackedBits.File.Mapped
import PackedBits.Proofs.BitStream.Bounded
import PackedBits.Proofs.BitStream.Conserving
import PackedBits.Proofs.BitStream.CutShort
import PackedBits.Proofs.BitStream.Overreading
import PackedBits.Proofs.BitStream.Refusals
import PackedBits.Proofs.BitStream.Repeating
import PackedBits.Proofs.BitStream.Retrying
import PackedBits.Proofs.BitStream.RoundTrip
import PackedBits.Proofs.BitStream.Sinks
import PackedBits.Proofs.BitStream.Sources
import PackedBits.Proofs.BitStream.Unbounded
import PackedBits.Proofs.Blocks.Cut
import PackedBits.Proofs.Blocks.Failures
import PackedBits.Proofs.Blocks.Lookback
import PackedBits.Proofs.Blocks.Text
import PackedBits.Proofs.ByteBits
import PackedBits.Proofs.File.Cursor
import PackedBits.Proofs.File.Mapping
import PackedBits.Proofs.File.Seeking
import PackedBits.Proofs.WordStream.Agreement
import PackedBits.Proofs.WordStream.Assembled
import PackedBits.Proofs.WordStream.Fixed
import PackedBits.Proofs.WordStream.Growing
import PackedBits.WordStream.Assembled
import PackedBits.WordStream.Memory
import PackedBits.WordStream.Observed
import PackedBits.Proofs.Blocks.Bounds
import PackedBits.Proofs.BitStream.Together
import PackedBits.Proofs.BitStream.Strict
import PackedBits.Proofs.BitStream.Counting
