import Llama.Batch.Budget
import Llama.Batch.Nested
import Llama.Batch.Tail
import Llama.Context.Cleanup
import Llama.Context.Tokens
import Llama.Gallocr.Reuse
import Llama.Gguf.RoundTrip
import Llama.Gguf.Sources
import Llama.Grammar.Partial
import Llama.Jinja.Arguments
import Llama.Jinja.Expression.RoundTrip
import Llama.Jinja.Lexer.Text
import Llama.Jinja.Renders
import Llama.Jinja.Slice
import Llama.KvCache.FullSearch
import Llama.KvCache.Mask
import Llama.KvCache.SeqState
import Llama.KvCache.Shift
import Llama.NgramCache
import Llama.NgramMap.Counts
import Llama.Peg.Until
import Llama.Recurrent.Isolation
import Llama.Recurrent.Rollback
import Llama.Recurrent.Rows
import Llama.Recurrent.Whole
import Llama.Rpc.Isomorphic
import Llama.Sampler.Dry
import Llama.Sampler.PartialSort
import Llama.Sampler.Penalties
import Llama.Sampler.ReasoningBlock
import Llama.Schema.Accepted
import Llama.Schema.Strings
import Llama.ServerContext.Alora
import Llama.ServerContext.Children
import Llama.ServerContext.Streaming
import Llama.ServerQueue.Places
import Llama.ServerQueue.Responses
import Llama.ServerTokens.Saved
import Llama.Stream.Buffer
import Llama.Stream.Causes
