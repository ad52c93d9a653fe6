import AstraApi.Server.Context
import AstraApi.Deps.Finalisation
import AstraApi.Dispatch.Dependencies
import AstraApi.Dispatch.Middleware
import AstraApi.Dispatch.KeepAlive
import AstraApi.WebSocket.FastChannel
import AstraApi.Server.Reuse
import AstraApi.Dispatch.CorsPolicy
import AstraApi.Server.ClientAddress
import AstraApi.Dispatch.GZipMiddleware
import AstraApi.Http.RequestBody
import AstraApi.Server.MasterAccept
import AstraApi.Multipart.Agreement
import AstraApi.Multipart.BoundaryParameter
import AstraApi.Multipart.FormKwargs
import AstraApi.Multipart.RequestForm
import AstraApi.Server.DriveCoro
import AstraApi.Dispatch.ExceptionHandlers
import AstraApi.Server.Draining
import AstraApi.WebSocket.EchoDrain
import AstraApi.WebSocket.EchoBuffer
import AstraApi.WebSocket.FrameLoop
import AstraApi.WebSocket.Handshake
import AstraApi.WebSocket.SendQueue
import AstraApi.Dispatch.BasicCredentials
import AstraApi.Dispatch.DependencyOrder
import AstraApi.Dispatch.GzipRoundTrip
import AstraApi.Response.MutableHeaders
import AstraApi.Response.ServerSentEvents
import AstraApi.Router.UrlPathFor
import AstraApi.Router.Mounts
import AstraApi.Dispatch.StaticFiles
import AstraApi.Dispatch.BodyMerge
import AstraApi.Response.OpenApiJson
import AstraApi.Deps.OwnParameters
import AstraApi.Dispatch.ParamValidator
import AstraApi.Deps.Caching
import AstraApi.Dispatch.ParamExtraction
import AstraApi.Multipart.BoundarySearch
import AstraApi.WebSocket.Unmask
import AstraApi.Response.IntegerBuffers
import AstraApi.WebSocket.EchoScratch
import AstraApi.Router.Invariant
import AstraApi.Dispatch.PercentDecode
import AstraApi.Deps.TopologicalOrder
import AstraApi.Dispatch.ParameterSources
