import Graphviz.Util.GvListRun
import Graphviz.Dotgen.RankAcyclic
import Graphviz.Cdt.Dtview
import Graphviz.Label.RTreeExact
import Graphviz.Vpsc.RemoveOverlaps
import Graphviz.Sparse.Product
import Graphviz.Xdot.RoundTrip
import Graphviz.Xdot.JsonXDot
import Graphviz.Neatogen.GraphDataHier
import Graphviz.Neatogen.Overlap
import Graphviz.Neatogen.ScAdjust
import Graphviz.Neatogen.Sgd
import Graphviz.Neatogen.SpringPaths
import Graphviz.Ortho.ShortPath
import Graphviz.Ortho.Tracks
import Graphviz.Pack.ArrayRects
import Graphviz.Pack.Fixed
import Graphviz.Html.ProcessTbl
import Graphviz.Cgraph.Cbstack
import Graphviz.Cgraph.Agstrcanon
import Graphviz.Cgraph.WriteOnce
import Graphviz.Cgraph.Nodebefore
import Graphviz.Cgraph.Relabel
import Graphviz.Cgraph.Rec
import Graphviz.Dotgen.Mincross
import Graphviz.Dotgen.Components
import Graphviz.Cgraph.Edgewalk
import Graphviz.Cgraph.TredRun
import Graphviz.Dotgen.FlatReorderRun
import Graphviz.Label.Hilbert
import Graphviz.Tools.BcompsTree
import Graphviz.Tools.SccmapMap
import Graphviz.Util.Arena
import Graphviz.Sparse.Connected
import Graphviz.Util.Xml
import Graphviz.Dotgen.LabelOrderRun
import Graphviz.Util.AgxbufRefine
import Graphviz.Common.HtmlEntity
import Graphviz.Common.Layers
import Graphviz.Common.Paging
import Graphviz.Common.Reclbl
import Graphviz.Patchwork.TreeMap
import Graphviz.Circogen.BlockHanging
import Graphviz.Sparse.Nearest
import Graphviz.Util.Random
import Graphviz.Common.NetworkSimplex
