import LibReactor.Loop
import LibReactor.Transition
import LibReactor.Framing
import LibReactor.Memory
import LibReactor.Roundup
import LibReactor.Reactor
import LibReactor.Buffer
import LibReactor.Stream
import LibReactor.Http
import LibReactor.Chunk
import LibReactor.Dechunk
import LibReactor.ChunkGrammar
import LibReactor.ReadRequest
import LibReactor.ContentLength
import LibReactor.Segmentation
import LibReactor.LinearProbing
import LibReactor.Map
import LibReactor.MapInvariant
import LibReactor.MapRefinement
import LibReactor.MapOwnership
import LibReactor.Mapi
import LibReactor.Utf8
import LibReactor.Utf8Spec
import LibReactor.Value
import LibReactor.Object
import LibReactor.Terminated
import LibReactor.Decode
import LibReactor.DecodeSafety
import LibReactor.Json
import LibReactor.JsonNumber
import LibReactor.JsonString
import LibReactor.Escape
import LibReactor.StringValid
import LibReactor.Utf8Reading
import LibReactor.Utf8Broken
import LibReactor.DecodeReference
import LibReactor.JsonComplete
import LibReactor.JsonSound
import LibReactor.StreamOutput
import LibReactor.FastPath
import LibReactor.PrintNumber
import LibReactor.LengthText
import LibReactor.Response
import LibReactor.Encode
import LibReactor.EncodeTree
import LibReactor.Canonical
import LibReactor.PrettyText
import LibReactor.RoundTrip
import LibReactor.Queue
import LibReactor.QueueDelivery
import LibReactor.ProducerOrder
import LibReactor.RefCount
import LibReactor.RefCountInvariant
import LibReactor.EventLoop
import LibReactor.Timeout
import LibReactor.Notify
import LibReactor.Signal
import LibReactor.Closing
import LibReactor.NotifyTable
import LibReactor.StreamCallbacks
import LibReactor.Server
import LibReactor.ServerSteps
import LibReactor.ServerLifetime
import LibReactor.Pipelining
import LibReactor.MarkedStreams
import LibReactor.QueueReader
import LibReactor.Flow
import LibReactor.FlowSteps
import LibReactor.FlowDelivery
import LibReactor.FlowLife
import LibReactor.Allocator
import LibReactor.HeapBuffer
import LibReactor.QueueMemory
import LibReactor.CancelledBuffers
import LibReactor.StreamMemory
import LibReactor.StreamBuffers
import LibReactor.BufferLifetime
import LibReactor.StreamReady
import LibReactor.StreamProgress
import LibReactor.FailedSend
import LibReactor.AbortPointer
import LibReactor.Network
import LibReactor.NetworkLinks
import LibReactor.NetworkCancel
import LibReactor.ResolverCache
import LibReactor.ResolverSteps
import LibReactor.ResolverReplies
import LibReactor.ResolverProgress
import LibReactor.Wraparound
import LibReactor.SubmissionRing
import LibReactor.CompletionRing
import LibReactor.Pool
import LibReactor.LinkedRing
import LibReactor.LinkedList
import LibReactor.ListSequences
import LibReactor.BufferMemory
import LibReactor.Vector
import LibReactor.Incremental
import LibReactor.Picohttpparser
import LibReactor.PicohttpparserBlocks
import LibReactor.RequestHead
import LibReactor.PicohttpparserInput
import LibReactor.PicohttpparserEnd
import LibReactor.HeaderParser
import LibReactor.Messages
import LibReactor.ReadMessages
import LibReactor.PicohttpparserResponse
import LibReactor.ReadAnswers
import LibReactor.ServedMessages
import LibReactor.Hash
import LibReactor.KeyMap
