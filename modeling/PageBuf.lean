import PageBuf.Lib.Cursor
import PageBuf.Lib.Framing
import PageBuf.Lib.Fragments
import PageBuf.Client.Isolation
import PageBuf.Client.Counts
import PageBuf.Client.Revision
import PageBuf.Client.Transfers
import PageBuf.Client.Refinement
import PageBuf.Client.Rings
import PageBuf.Client.OverwriteBuffer
import PageBuf.Client.EmptyPages
import PageBuf.Client.Dangling
import PageBuf.Client.Wraps
import PageBuf.Client.Bounds
import PageBuf.Client.ByteRing
import PageBuf.Client.Failures
import PageBuf.Client.SelfAppend
import PageBuf.Client.PageSizes
import PageBuf.Client.Gather
import PageBuf.Client.Iteration
import PageBuf.Client.FlatFile
import PageBuf.Client.Trimming
import PageBuf.Client.MappingIndex
import PageBuf.Client.MapCounts
import PageBuf.Readers.Codec
import PageBuf.Readers.LineSearch
import PageBuf.Readers.Stream
import PageBuf.Client.Tiling
import PageBuf.Readers.Consume
import PageBuf.Readers.Wrapper
import PageBuf.Readers.FirstBytes
import PageBuf.Client.InsertAtEnd
import PageBuf.Client.Flushing
import PageBuf.Client.Sessions
import PageBuf.Client.Classes
import PageBuf.Client.HashIndex
import PageBuf.Client.Sharing
