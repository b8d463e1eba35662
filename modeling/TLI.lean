import TLI.Competitors.ART.KeyReads
import TLI.Competitors.ART.Ordered
import TLI.Competitors.ART.Range
import TLI.Competitors.ART.Removal
import TLI.Competitors.ARTOLC.Epoche
import TLI.Competitors.ARTOLC.Reach
import TLI.Competitors.DynamicPGM.Enumerate
import TLI.Competitors.FAST.Search
import TLI.Competitors.LIPP.Lookup
import TLI.Competitors.LIPP.Range
import TLI.Competitors.MABTree.Defined
import TLI.Competitors.MABTree.SelfVerify
import TLI.Competitors.RMI
import TLI.Driver.PhaseCounts
import TLI.Driver.Release
import TLI.Driver.Verify
import TLI.FileFormat
import TLI.Searches.Probe
import TLI.Searches.VectorScan
import TLI.Workload.FastRandom
import TLI.Workload.Inserts
import TLI.Workload.Interleaving
import TLI.Workload.NegativeDraw
