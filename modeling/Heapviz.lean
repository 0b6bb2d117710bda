import Heapviz.Abi
import Heapviz.Run
import Heapviz.Ring
import Heapviz.RingInv
import Heapviz.RingStep
import Heapviz.RingSafety
import Heapviz.Consumer
import Heapviz.Session
import Heapviz.Handshake
import Heapviz.WaitConsumer
import Heapviz.Preload
import Heapviz.PreloadOrder
import Heapviz.PreloadReplay
import Heapviz.RobinHood
import Heapviz.ChunkTable
import Heapviz.ChunkInv
import Heapviz.RingList
import Heapviz.ChunkMap
import Heapviz.ChunkQueue
import Heapviz.ChunkCap
import Heapviz.ChunkOrder
import Heapviz.ChunkMarks
import Heapviz.ChunkShape
import Heapviz.Grid
import Heapviz.Intervals
import Heapviz.RegionPack
import Heapviz.HeatMap
import Heapviz.Cursor
import Heapviz.CursorRuns
import Heapviz.Checked
import Heapviz.GridGeometry
import Heapviz.Numerals
import Heapviz.RingMapping
import Heapviz.Launch
import Heapviz.LaunchRuns
import Heapviz.ShmNames
import Heapviz.Bootstrap
import Heapviz.ChunkReader
import Heapviz.MapsText
import Heapviz.MapsNotice
import Heapviz.MapsScan
import Heapviz.TextCells
import Heapviz.ControlCodes
import Heapviz.Tally
import Heapviz.LeakDiff
import Heapviz.HeatSum
import Heapviz.HeatStamps
import Heapviz.Ranking
import Heapviz.Fragmentation
import Heapviz.IntervalHoles
import Heapviz.FragHole
import Heapviz.HeapApp
import Heapviz.HeapAgree
import Heapviz.HeapTotals
import Heapviz.HeapRun
import Heapviz.HeapRepack
import Heapviz.HeapPause
import Heapviz.HeapEnrich
import Heapviz.HeapOverhead
import Heapviz.HeatStream
import Heapviz.HeatColor
import Heapviz.Inspector
import Heapviz.HeapFade
import Heapviz.HeapInspect
import Heapviz.HeapRecycle
import Heapviz.HeapWalker
import Heapviz.WalkChain
import Heapviz.WalkOut
import Heapviz.WalkBytes
import Heapviz.Snapshot
import Heapviz.Vt
import Heapviz.Framebuffer
import Heapviz.Renderer
import Heapviz.EventLoop
import Heapviz.RenderShows
import Heapviz.RenderBound
import Heapviz.Utf8Codec
import Heapviz.ScreenResize
import Heapviz.Recent
import Heapviz.FramePace
import Heapviz.FramePaceRuns
import Heapviz.FrameStats
import Heapviz.Terminal
import Heapviz.FrameSkip
import Heapviz.DrawClip
import Heapviz.OutputScan
import Heapviz.Escapes
import Heapviz.Misread
import Heapviz.ExitLine
import Heapviz.HalfBlocks
import Heapviz.MapSeams
import Heapviz.Simulation
import Heapviz.PreloadReports
import Heapviz.Pipeline
import Heapviz.HeapLedger
import Heapviz.PipelineHeap
import Heapviz.Layout
import Heapviz.Footprint
import Heapviz.Panels
import Heapviz.Metrics
import Heapviz.MetricsRuns
import Heapviz.InspectorPanel
import Heapviz.MapArea
import Heapviz.Frame
import Heapviz.Keys
