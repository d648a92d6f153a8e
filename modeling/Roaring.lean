import Roaring.Bitmap.Count
import Roaring.Bitmap.Cursor
import Roaring.Fixture
import Roaring.Notice
import Roaring.Proofs.Bitmap.Laws
import Roaring.Proofs.Columns.Reachable
import Roaring.Proofs.Bitmap.Smallest
import Roaring.Proofs.Codec.RoundTrip
import Roaring.Proofs.Codec.Accepted
import Roaring.Proofs.Codec.Reencoded
import Roaring.Proofs.Codec.Rewritten
import Roaring.Proofs.Codec.Prefix
import Roaring.Proofs.Fixture
import Roaring.Proofs.Codec.Size
import Roaring.Proofs.Codec.Layout
import Roaring.Proofs.Container.Answers
import Roaring.Proofs.Bitmap.Count
import Roaring.Proofs.Bitmap.History
import Roaring.Proofs.Bitmap.Cursor
import Roaring.Proofs.Bitmap.Equality
import Roaring.Proofs.Bitmap.NormalForm
import Roaring.Proofs.Columns.RangeUpdates
import Roaring.Proofs.Container.SetUpdates
import Roaring.Proofs.Bitmap.OrderStatistics
import Roaring.Proofs.RunSet.Algebra
import Roaring.Proofs.Container.Optimize
import Roaring.Proofs.Container.Stored
import Roaring.Proofs.Bitmap.Append
import Roaring.Proofs.BitSet.Updates
import Roaring.Proofs.RunSet.Arithmetic
import Roaring.Proofs.Ascending
