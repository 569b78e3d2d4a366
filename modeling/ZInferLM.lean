import ZInferLM.Library.Utf8
import ZInferLM.Library.OrderedPattern
import ZInferLM.Library.Outcome
import ZInferLM.Library.Lookup
import ZInferLM.Library.PairMerging
import ZInferLM.Tokenizer.ByteSymbols
import ZInferLM.Tokenizer.Pretokenizer
import ZInferLM.Tokenizer.SpecialTokens
import ZInferLM.Tokenizer.TokenizerImpl
import ZInferLM.Tokenizer.Merging
import ZInferLM.Tokenizer.Pieces
import ZInferLM.Tokenizer.Segmentation
import ZInferLM.Tokenizer.RoundTrip
import ZInferLM.Gguf.Metadata
import ZInferLM.Gguf.Loader
import ZInferLM.Gguf.Layout
import ZInferLM.Gguf.RoundTrip
import ZInferLM.Gguf.Bounds
import ZInferLM.KvCache.Cache
import ZInferLM.KvCache.SingleLayer
import ZInferLM.KvCache.Overwrite
import ZInferLM.Inference.GraphReuse
import ZInferLM.Inference.Context
import ZInferLM.Library.Transitions
import ZInferLM.Worker.Queue
import ZInferLM.Worker.Completion
import ZInferLM.Inference.Events
import ZInferLM.Serve.Handlers
import ZInferLM.Serve.Conversation
import ZInferLM.Serve.Replies
import ZInferLM.Tokenizer.StopTexts
import ZInferLM.Tokenizer.History
import ZInferLM.Serve.StreamedText
import ZInferLM.KvCache.BlockList
import ZInferLM.KvCache.Init
import ZInferLM.Library.Chunked
import ZInferLM.Library.TextDecoder
import ZInferLM.Serve.Client
import ZInferLM.Serve.SseRoundTrip
import ZInferLM.Serve.Session
import ZInferLM.Serve.Streaming
import ZInferLM.Serve.StreamOrder
import ZInferLM.Library.InverseCdf
import ZInferLM.Library.Ranking
import ZInferLM.Sampling.Samplers
import ZInferLM.Sampling.TopK
import ZInferLM.Sampling.Nucleus
import ZInferLM.Inference.Inputs
import ZInferLM.Events.Delivery
import ZInferLM.Gguf.Accessors
import ZInferLM.Gguf.Alignment
import ZInferLM.Inference.CausalInputs
import ZInferLM.Inference.EndOfSequence
import ZInferLM.Inference.GraphSize
import ZInferLM.Gguf.Rendering
import ZInferLM.Library.FloatRounding
import ZInferLM.Metrics.Collector
import ZInferLM.Metrics.Reset
import ZInferLM.Models.Model
import ZInferLM.Worker.Teardown
import ZInferLM.Events.Streams
import ZInferLM.Gguf.Soundness
import ZInferLM.Library.Settling
import ZInferLM.Serve.ChatPage
import ZInferLM.Serve.Dialogue
import ZInferLM.Worker.Progress
import ZInferLM.Serve.Clients
import ZInferLM.Inference.TokenRange
import ZInferLM.Serve.Answers
import ZInferLM.Serve.Terminals
