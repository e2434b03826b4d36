import VirtualNoah.Lib.ByteFile
import VirtualNoah.Lib.Fuel
import VirtualNoah.Lib.Lanes
import VirtualNoah.Lib.Outcome
import VirtualNoah.Lib.SiblingForest
import VirtualNoah.Lib.SortedTable
import VirtualNoah.Lib.StepRun
import VirtualNoah.Lib.Words
import VirtualNoah.Nand.BlockLayer
import VirtualNoah.Nand.Device
import VirtualNoah.Nand.Bounds
import VirtualNoah.Nand.Image
import VirtualNoah.Nand.ImageLength
import VirtualNoah.Nand.Transfer
import VirtualNoah.Nand.PageArray
import VirtualNoah.Builder.PutToFlash
import VirtualNoah.Builder.ExactImage
import VirtualNoah.Builder.Confinement
import VirtualNoah.Builder.Config
import VirtualNoah.Builder.FlashSize
import VirtualNoah.Boot
import VirtualNoah.Yaffs.PackedTags2
import VirtualNoah.Yaffs.Mtdif2
import VirtualNoah.Yaffs.Mkyaffs2image
import VirtualNoah.Yaffs.Walk
import VirtualNoah.Yaffs.Headers
import VirtualNoah.Yaffs.Pages
import VirtualNoah.Yaffs.Pipeline
import VirtualNoah.Soc.Host
import VirtualNoah.Soc.Intc
import VirtualNoah.Soc.Tcu
import VirtualNoah.Soc.TcuLines
import VirtualNoah.Soc.TcuCount
import VirtualNoah.Soc.TcuObserve
import VirtualNoah.Soc.TcuHalf
import VirtualNoah.Soc.TcuDeadline
import VirtualNoah.Soc.GuestRam
import VirtualNoah.Soc.Dma
import VirtualNoah.Soc.DmaRegions
import VirtualNoah.Soc.DmaArming
import VirtualNoah.Soc.DmaNdrun
import VirtualNoah.Soc.DmaChain
import VirtualNoah.Soc.DmaDoorbell
import VirtualNoah.Clock.Clk
import VirtualNoah.Clock.Walks
import VirtualNoah.Clock.Forest
import VirtualNoah.Clock.Init
import VirtualNoah.Clock.Runs
import VirtualNoah.Clock.Params
import VirtualNoah.Clock.Ticks
import VirtualNoah.Clock.Rates
import VirtualNoah.Clock.Steady
import VirtualNoah.Clock.RunningRates
import VirtualNoah.Clock.Faults
import VirtualNoah.Soc.Cpm
import VirtualNoah.Soc.CpmTree
import VirtualNoah.Soc.CpmAgree
import VirtualNoah.Soc.CpmRates
import VirtualNoah.Soc.CpmSafe
import VirtualNoah.Soc.PhysMem
import VirtualNoah.Soc.BadWidth
import VirtualNoah.Lib.DoWhile
import VirtualNoah.Soc.Lcdc
import VirtualNoah.Soc.LcdDraw
import VirtualNoah.Soc.LcdBounds
import VirtualNoah.Soc.Sadc
import VirtualNoah.Soc.TouchSamples
import VirtualNoah.Lib.WriteBack
import VirtualNoah.Mtd.UdcCache
import VirtualNoah.Mtd.UdcEntries
import VirtualNoah.Mtd.UdcCoherent
import VirtualNoah.Mtd.UdcSearch
import VirtualNoah.Yaffs.Plan
import VirtualNoah.Yaffs.ExitStatus
import VirtualNoah.Lib.CString
import VirtualNoah.Yaffs.Names
import VirtualNoah.Nand.Programs
import VirtualNoah.Nand.CacheRead
import VirtualNoah.Soc.Gpio
import VirtualNoah.Soc.Rtc
import VirtualNoah.Soc.RtcSeconds
import VirtualNoah.Soc.Emc
import VirtualNoah.Soc.EmcParity
import VirtualNoah.Soc.SadcDriver
import VirtualNoah.Soc.EccHandshake
import VirtualNoah.Soc.LcdPixels
import VirtualNoah.Lib.ParityCode
import VirtualNoah.Yaffs.Ecc
import VirtualNoah.Yaffs.TagsEcc
import VirtualNoah.Mtd.NandEcc
import VirtualNoah.NandSpl
import VirtualNoah.BootChain
import VirtualNoah.Soc.BoardMap
import VirtualNoah.Soc.TimerQueue
import VirtualNoah.Soc.TcuTimers
