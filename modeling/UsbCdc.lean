import UsbCdc.BoundedLoops
import UsbCdc.LabelledRuns
import UsbCdc.Transducers
import UsbCdc.LeftmostMatches
import UsbCdc.CyclicWindows
import UsbCdc.DropOldestFifo
import UsbCdc.Substrings
import UsbCdc.CStrings
import UsbCdc.RingBuf
import UsbCdc.RingBufRefinement
import UsbCdc.CommandGrammar
import UsbCdc.ParseData
import UsbCdc.ParseDataCorrectness
import UsbCdc.CommandCuts
import UsbCdc.ReadBufferTask
import UsbCdc.CommandHandover
import UsbCdc.CommandDispatch
import UsbCdc.CommandHash
import UsbCdc.WakeUpTokens
import UsbCdc.DataAvailable
import UsbCdc.UsbLog
import UsbCdc.ProcessDataTask
import UsbCdc.UnsupportedCommands
import UsbCdc.UsbPcdc
import UsbCdc.PacketIngestion
import UsbCdc.ReadTokens
import UsbCdc.PacketDelivery
import UsbCdc.ExclusiveUse
import UsbCdc.Replies
import UsbCdc.ReceivePipeline
import UsbCdc.UsbHcdc
import UsbCdc.HostErrors
import UsbCdc.HostSession
import UsbCdc.CheckUserInput
import UsbCdc.CheckUserInputCorrectness
import UsbCdc.CommandExtractors
import UsbCdc.Numerals
import UsbCdc.TwosComplement
import UsbCdc.PrintfUtil
import UsbCdc.PrintfText
import UsbCdc.PrintfDirectives
import UsbCdc.PrintfMeaning
import UsbCdc.PrintfFormats
import UsbCdc.PrintfOutputs
import UsbCdc.PrintfArguments
import UsbCdc.PrintfNumbers
import UsbCdc.PrintfFieldWidths
import UsbCdc.UsbLogFormatting
import UsbCdc.Firmware
import UsbCdc.FirmwareBytes
import UsbCdc.FirmwarePasses
import UsbCdc.FirmwareCommands
import UsbCdc.FirmwareDelivery
import UsbCdc.FirmwareProgress
import UsbCdc.CyclicChunks
import UsbCdc.SeggerRtt
import UsbCdc.SeggerRttRefinement
import UsbCdc.SeggerRttOverwrite
import UsbCdc.RttTerminals
import UsbCdc.RttSharing
